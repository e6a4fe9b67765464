import Mathlib.Data.List.Basic

/-! # Selected rows

A table is a list of rows. What a change of some rows, a delete and a look-up
come to on the rows that pass a test.
-/

namespace Select

variable {α : Type} {p q : α → Bool} {rows : List α}

/-- A change of the rows that meet a condition. -/
def changed (hit : α → Prop) [DecidablePred hit] (change : α → α) (rows : List α) : List α :=
  rows.map fun row => if hit row then change row else row

section Changed

variable {hit : α → Prop} [DecidablePred hit] {change : α → α}

/-- A change that takes no row in or out of the selection. -/
theorem filter_changed (hkeep : ∀ row, hit row → q (change row) = q row) :
    (changed hit change rows).filter q = changed hit change (rows.filter q) := by
  rw [changed, List.filter_map, changed]
  congr 1
  refine List.filter_congr fun row _ => ?_
  by_cases hrow : hit row
  · simp [hrow, hkeep row hrow]
  · simp [hrow]

/-- A change of rows outside of the selection. -/
theorem filter_changed_other (hother : ∀ row ∈ rows, hit row → q row = false)
    (hkeep : ∀ row, hit row → q (change row) = q row) :
    (changed hit change rows).filter q = rows.filter q := by
  rw [filter_changed hkeep, changed]
  refine (List.map_congr_left fun row hrow => ?_).trans (List.map_id _)
  obtain ⟨hmem, hselected⟩ := List.mem_filter.mp hrow
  exact if_neg fun hhit => by simp [hother row hmem hhit] at hselected

theorem forall_changed {P : α → Prop} (hrows : ∀ row ∈ rows, P row)
    (hchange : ∀ row, hit row → P row → P (change row)) :
    ∀ row ∈ changed hit change rows, P row := by
  intro row hrow
  obtain ⟨old, hold, rfl⟩ := List.mem_map.mp hrow
  split
  next hhit => exact hchange old hhit (hrows old hold)
  next => exact hrows old hold

/-- A column that the change leaves alone. -/
theorem map_changed {β : Type} {column : α → β}
    (hkeep : ∀ row, hit row → column (change row) = column row) :
    (changed hit change rows).map column = rows.map column := by
  rw [changed, List.map_map]
  refine List.map_congr_left fun row _ => ?_
  by_cases hrow : hit row
  · simp [hrow, hkeep row hrow]
  · simp [hrow]

theorem changed_eq_self (hsame : ∀ row ∈ rows, hit row → change row = row) :
    changed hit change rows = rows := by
  refine (List.map_congr_left fun row hrow => ?_).trans (List.map_id _)
  by_cases hhit : hit row
  · rw [if_pos hhit, hsame row hrow hhit, id]
  · rw [if_neg hhit, id]

end Changed

/-- A delete of rows outside of the selection. -/
theorem filter_filter_of_imp (himp : ∀ row ∈ rows, q row = true → p row = true) :
    (rows.filter p).filter q = rows.filter q := by
  rw [List.filter_filter]
  refine List.filter_congr fun row hrow => ?_
  cases hq : q row with
  | true => simp [himp row hrow hq]
  | false => rfl

theorem filter_comm (p q : α → Bool) (rows : List α) :
    (rows.filter p).filter q = (rows.filter q).filter p := by
  simp only [List.filter_filter, Bool.and_comm]

/-- A look-up that finds selected rows only. -/
theorem find?_filter_of_imp (himp : ∀ row ∈ rows, q row = true → p row = true) :
    (rows.filter p).find? q = rows.find? q := by
  rw [← List.head?_filter, ← List.head?_filter, filter_filter_of_imp himp]

theorem any_filter_of_imp (himp : ∀ row ∈ rows, q row = true → p row = true) :
    (rows.filter p).any q = rows.any q := by
  rw [Bool.eq_iff_iff, List.any_eq_true, List.any_eq_true]
  constructor
  · rintro ⟨row, hrow, hq⟩
    exact ⟨row, List.mem_of_mem_filter hrow, hq⟩
  · rintro ⟨row, hrow, hq⟩
    exact ⟨row, List.mem_filter.mpr ⟨hrow, himp row hrow hq⟩, hq⟩

/-- Rows outside of the selection that nothing comes of. -/
theorem flatMap_filter {β : Type} {f g : α → List β}
    (hsame : ∀ row ∈ rows, p row = true → f row = g row)
    (hnil : ∀ row ∈ rows, p row = false → g row = []) :
    (rows.filter p).flatMap f = rows.flatMap g := by
  induction rows with
  | nil => rfl
  | cons row rest ih =>
      have hrest := ih (fun other hother => hsame other (List.mem_cons_of_mem _ hother))
        fun other hother => hnil other (List.mem_cons_of_mem _ hother)
      cases hrow : p row with
      | true =>
          rw [List.filter_cons_of_pos hrow, List.flatMap_cons, List.flatMap_cons, hrest,
            hsame row List.mem_cons_self hrow]
      | false =>
          rw [List.filter_cons_of_neg (by simp [hrow]), List.flatMap_cons, hrest,
            hnil row List.mem_cons_self hrow, List.nil_append]

/-- A look-up by a key that no two rows share. -/
theorem find?_key {κ : Type} [DecidableEq κ] {key : α → κ} (hnodup : (rows.map key).Nodup) {row : α}
    (hrow : row ∈ rows) : rows.find? (fun found => key found = key row) = some row := by
  induction rows with
  | nil => cases hrow
  | cons first rest ih =>
      rw [List.map_cons, List.nodup_cons] at hnodup
      rcases List.mem_cons.mp hrow with rfl | hrest
      · simp
      · have hne : key first ≠ key row := fun heq =>
          hnodup.1 (heq ▸ List.mem_map_of_mem hrest)
        rw [List.find?_cons_of_neg (by simpa using hne)]
        exact ih hnodup.2 hrest

end Select
