import Mathlib.Data.List.Basic
import Mathlib.Logic.Function.Basic

/-! # Writes to a store

Plain writes, of which the last at a key wins, and gated writes to one entry, of
which only those count that name the tag the entry has at the time.
-/

namespace Writes

/-! ## Plain writes -/

section Plain

variable {Key Value : Type} [DecidableEq Key]

/-- A store after some writes. -/
def written (writes : List (Key × Value)) (store : Key → Value) : Key → Value :=
  writes.foldl (fun store write => Function.update store write.1 write.2) store

variable {writes : List (Key × Value)} {store : Key → Value} {key : Key} {value : Value}

@[simp] theorem written_nil : written [] store = store := rfl

theorem written_append (later : List (Key × Value)) :
    written (writes ++ later) store = written later (written writes store) := by
  unfold written
  rw [List.foldl_append]

/-- Writes that all leave the value a key has. -/
theorem written_eq (hstore : store key = value)
    (hwrites : ∀ write ∈ writes, write.1 = key → write.2 = value) :
    written writes store key = value := by
  induction writes generalizing store with
  | nil => exact hstore
  | cons write rest ih =>
      apply @ih (Function.update store write.1 write.2)
      · by_cases hkey : key = write.1
        · rw [hkey, Function.update_self]
          exact hwrites write List.mem_cons_self hkey.symm
        · rw [Function.update_of_ne hkey]
          exact hstore
      · intro later hmem
        exact hwrites later (List.mem_cons_of_mem _ hmem)

/-- A write that no later one contradicts. -/
theorem written_last {before later : List (Key × Value)}
    (hlater : ∀ write ∈ later, write.1 = key → write.2 = value) :
    written (before ++ (key, value) :: later) store key = value := by
  rw [written_append]
  apply written_eq (Function.update_self key value (written before store)) hlater

end Plain

/-! ## Gated writes -/

section Gated

variable {Tag Value : Type} [DecidableEq Tag]

/-- A cell: a tag, and a value unless it is a tombstone. -/
@[ext] structure Cell (Tag Value : Type) where
  tag : Tag
  value : Option Value

/-- A write names the tag it expects, its parent. -/
inductive Gated (Tag Value : Type) where
  | put (tag parent : Tag) (value : Value)
  | delete (parent : Tag)

def Gated.parent : Gated Tag Value → Tag
  | .put _ parent _ | .delete parent => parent

/-- What a write makes of the entry, if there is one. A delete of none leaves a
tombstone with the tag `blank`. -/
def Gated.apply (blank : Tag) (write : Gated Tag Value) (held : Option (Cell Tag Value)) :
    Option (Cell Tag Value) :=
  match held, write with
  | none, .put tag _ value => some ⟨tag, some value⟩
  | none, .delete _ => some ⟨blank, none⟩
  | some entry, .put tag parent value =>
      if entry.tag = parent then some ⟨tag, some value⟩ else some entry
  | some entry, .delete parent => if entry.tag = parent then some ⟨entry.tag, none⟩ else some entry

/-- An entry after some writes. -/
def gated (blank : Tag) (writes : List (Gated Tag Value)) (held : Option (Cell Tag Value)) :
    Option (Cell Tag Value) :=
  writes.foldl (fun held write => write.apply blank held) held

variable {blank tag : Tag} {value : Value} {writes : List (Gated Tag Value)}
  {held : Option (Cell Tag Value)} {entry : Cell Tag Value}

@[simp] theorem gated_nil : gated blank [] held = held := rfl

theorem Gated.apply_of_parent_ne {write : Gated Tag Value} (hparent : write.parent ≠ entry.tag) :
    write.apply blank (some entry) = some entry := by
  cases write with
  | put tag parent value => exact if_neg (Ne.symm hparent)
  | delete parent => exact if_neg (Ne.symm hparent)

/-- Writes that expect another tag change nothing. -/
theorem gated_of_parent_ne (hparents : ∀ write ∈ writes, write.parent ≠ entry.tag) :
    gated blank writes (some entry) = some entry := by
  induction writes with
  | nil => rfl
  | cons write rest ih =>
      rw [gated, List.foldl_cons, Gated.apply_of_parent_ne (hparents write List.mem_cons_self)]
      exact ih fun later hmem => hparents later (List.mem_cons_of_mem _ hmem)

/-- Once the value is there, puts of it leave it there. -/
theorem gated_of_there (hputs : ∀ write ∈ writes, ∃ parent, write = .put tag parent value) :
    gated blank writes (some ⟨tag, some value⟩) = some ⟨tag, some value⟩ := by
  induction writes with
  | nil => rfl
  | cons write rest ih =>
      obtain ⟨parent, rfl⟩ := hputs write List.mem_cons_self
      rw [gated, List.foldl_cons, Gated.apply, ite_self]
      exact ih fun later hmem => hputs later (List.mem_cons_of_mem _ hmem)

/-- Puts of one value get it there when there is no entry. -/
theorem gated_of_none (hputs : ∀ write ∈ writes, ∃ parent, write = .put tag parent value)
    (hsome : writes ≠ []) : gated blank writes none = some ⟨tag, some value⟩ := by
  cases writes with
  | nil => exact absurd rfl hsome
  | cons write rest =>
      obtain ⟨parent, rfl⟩ := hputs write List.mem_cons_self
      exact gated_of_there fun later hmem => hputs later (List.mem_cons_of_mem _ hmem)

/-- Puts of one value get it there when one of them expects the entry. -/
theorem gated_of_expected (hputs : ∀ write ∈ writes, ∃ parent, write = .put tag parent value)
    (hexpected : ∃ write ∈ writes, write.parent = entry.tag) :
    gated blank writes (some entry) = some ⟨tag, some value⟩ := by
  induction writes with
  | nil => simp at hexpected
  | cons write rest ih =>
      obtain ⟨parent, rfl⟩ := hputs write List.mem_cons_self
      have hrest : ∀ write ∈ rest, ∃ parent, write = .put tag parent value :=
        fun later hmem => hputs later (List.mem_cons_of_mem _ hmem)
      rw [gated, List.foldl_cons, Gated.apply]
      split
      next => exact gated_of_there hrest
      next hparent =>
        obtain ⟨expected, hmem, htag⟩ := hexpected
        apply ih hrest
        rcases List.mem_cons.mp hmem with rfl | hlater
        · exact absurd htag.symm hparent
        · exact ⟨expected, hlater, htag⟩

/-- A delete that expects the entry, among puts that do not, ends with a tombstone. -/
theorem gated_of_deleted
    (hwrites : ∀ write ∈ writes, write = .delete entry.tag ∨ write.parent ≠ entry.tag)
    (hdelete : entry.value = none ∨ .delete entry.tag ∈ writes) :
    gated blank writes (some entry) = some ⟨entry.tag, none⟩ := by
  induction writes generalizing entry with
  | nil =>
      rcases hdelete with hnone | hmem
      · rw [gated_nil, ← hnone]
      · cases hmem
  | cons write rest ih =>
      have hrest : ∀ write ∈ rest, write = .delete entry.tag ∨ write.parent ≠ entry.tag :=
        fun later hmem => hwrites later (List.mem_cons_of_mem _ hmem)
      rw [gated, List.foldl_cons]
      rcases hwrites write List.mem_cons_self with rfl | hparent
      · rw [Gated.apply, if_pos rfl]
        exact @ih ⟨entry.tag, none⟩ hrest (Or.inl rfl)
      · rw [Gated.apply_of_parent_ne hparent]
        apply ih hrest
        rcases hdelete with hnone | hmem
        · exact Or.inl hnone
        · rcases List.mem_cons.mp hmem with rfl | hlater
          · exact absurd rfl hparent
          · exact Or.inr hlater

end Gated

end Writes
