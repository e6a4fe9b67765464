import Mathlib.Data.List.DropRight

/-! # Cutting the ends off a list

What a test cuts off the front and the back of a list, next to appending and mapping.
-/

namespace Ends

variable {α β : Type} {p q : α → Bool} {l r : List α}

theorem head?_dropWhile : ∀ x ∈ (l.dropWhile p).head?, p x = false := by
  induction l with
  | nil => simp
  | cons a rest ih =>
      rw [List.dropWhile_cons]
      split
      next => exact ih
      next hfails => simpa using hfails

theorem dropWhile_eq_self (hhead : ∀ x ∈ l.head?, p x = false) : l.dropWhile p = l := by
  cases l with
  | nil => rfl
  | cons a rest => rw [List.dropWhile_cons_of_neg (by simp [hhead a rfl])]

theorem getLast?_rdropWhile : ∀ x ∈ (l.rdropWhile p).getLast?, p x = false := by
  intro x hlast
  rw [List.rdropWhile, List.getLast?_reverse] at hlast
  exact head?_dropWhile x hlast

theorem rdropWhile_eq_self (hlast : ∀ x ∈ l.getLast?, p x = false) : l.rdropWhile p = l := by
  rw [← List.head?_reverse] at hlast
  rw [List.rdropWhile, dropWhile_eq_self hlast, List.reverse_reverse]

/-- The cut at the front stops where the test fails. -/
theorem dropWhile_append (hfails : ∃ x ∈ l, p x = false) :
    (l ++ r).dropWhile p = l.dropWhile p ++ r := by
  rw [List.dropWhile_append, if_neg]
  obtain ⟨x, hmem, hx⟩ := hfails
  intro hempty
  have hall := List.dropWhile_eq_nil_iff.mp (List.isEmpty_iff.mp hempty) x hmem
  rw [hx] at hall
  cases hall

/-- And the one at the back. -/
theorem rdropWhile_append (hfails : ∃ x ∈ r, p x = false) :
    (l ++ r).rdropWhile p = l ++ r.rdropWhile p := by
  obtain ⟨x, hmem, hx⟩ := hfails
  rw [List.rdropWhile, List.reverse_append, dropWhile_append ⟨x, List.mem_reverse.mpr hmem, hx⟩,
    List.reverse_append, List.reverse_reverse, List.rdropWhile]

theorem rdropWhile_append_of_all (hall : ∀ x ∈ r, p x = true) :
    (l ++ r).rdropWhile p = l.rdropWhile p := by
  rw [List.rdropWhile, List.reverse_append, List.dropWhile_append_of_pos, List.rdropWhile]
  intro x hmem
  exact hall x (List.mem_reverse.mp hmem)

/-- A coarser cut takes what a finer one takes. -/
theorem rdropWhile_rdropWhile (himp : ∀ x, p x = true → q x = true) :
    (l.rdropWhile p).rdropWhile q = l.rdropWhile q := by
  conv_rhs => rw [← List.rdropWhile_append_rtakeWhile (p := p) (l := l)]
  refine (rdropWhile_append_of_all ?_).symm
  intro x hmem
  exact himp x (List.mem_rtakeWhile_imp hmem)

theorem rdropWhile_map (f : β → α) (l : List β) :
    (l.map f).rdropWhile p = (l.rdropWhile (p ∘ f)).map f := by
  rw [List.rdropWhile, ← List.map_reverse, List.dropWhile_map, ← List.map_reverse, List.rdropWhile]

theorem count_rdropWhile_lt [DecidableEq α] {c : α} (hcut : l.rdropWhile (· = c) ≠ l) :
    (l.rdropWhile (· = c)).count c < l.count c := by
  have hsplit := List.rdropWhile_append_rtakeWhile (p := (· = c)) (l := l)
  have htaken : l.rtakeWhile (· = c) ≠ [] := by
    intro hnil
    rw [hnil, List.append_nil] at hsplit
    exact hcut hsplit
  conv_rhs => rw [← hsplit]
  rw [List.count_append]
  apply Nat.lt_add_of_pos_right
  obtain ⟨x, hmem⟩ := List.exists_mem_of_ne_nil _ htaken
  rw [List.count_pos_iff]
  have hx : x = c := by simpa using List.mem_rtakeWhile_imp hmem
  exact hx ▸ hmem

end Ends
