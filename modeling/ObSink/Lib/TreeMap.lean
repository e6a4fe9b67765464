import Mathlib.Data.List.Induction
import Mathlib.Data.List.Nodup
import Mathlib.Data.List.Perm.Basic
import Mathlib.Tactic.Common

/-! # Ordered maps

Facts about the entries of an extensional tree map.
-/

namespace Std.ExtTreeMap

variable {α β : Type} [Ord α] [TransOrd α] [LawfulEqOrd α]

theorem nodup_toList (m : ExtTreeMap α β) : m.toList.Nodup := by
  have hdistinct := m.distinct_keys_toList
  refine hdistinct.imp ?_
  rintro a b hne rfl
  exact hne compare_self

/-- A map is what its entries make. -/
theorem ofList_toList (m : ExtTreeMap α β) : ofList m.toList = m := by
  apply ext_getElem?
  intro k
  cases hentry : m[k]? with
  | some v =>
      apply getElem?_ofList_of_mem compare_self m.distinct_keys_toList
      rw [mem_toList_iff_getElem?_eq_some]
      exact hentry
  | none =>
      classical
      apply getElem?_ofList_of_contains_eq_false
      rw [Bool.eq_false_iff, ne_eq, List.contains_iff_mem]
      intro hmem
      obtain ⟨entry, hin, rfl⟩ := List.mem_map.mp hmem
      rw [mem_toList_iff_getElem?_eq_some, hentry] at hin
      cases hin

/-- A new key adds one entry and keeps the others. -/
theorem toList_insert_perm_of_new (m : ExtTreeMap α β) (k : α) (v : β) (hnew : m[k]? = none) :
    (m.insert k v).toList.Perm ((k, v) :: m.toList) := by
  have hnot : (k, v) ∉ m.toList := by
    rw [mem_toList_iff_getElem?_eq_some, hnew]
    simp
  rw [List.perm_ext_iff_of_nodup (nodup_toList _) (List.nodup_cons.mpr ⟨hnot, nodup_toList m⟩)]
  rintro ⟨k', v'⟩
  rw [List.mem_cons, mem_toList_iff_getElem?_eq_some, mem_toList_iff_getElem?_eq_some,
    getElem?_insert]
  split
  next heq =>
    obtain rfl := LawfulEqCmp.eq_of_compare heq
    simp [hnew, eq_comm]
  next hne =>
    have hkey : k' ≠ k := by
      rintro rfl
      exact hne compare_self
    simp [hkey]

/-- A key's new entry replaces its old one. -/
theorem toList_insert_perm [DecidableEq α] (m : ExtTreeMap α β) (k : α) (v : β) :
    (m.insert k v).toList.Perm ((k, v) :: m.toList.filter fun entry => entry.1 ≠ k) := by
  have hnodup : ((k, v) :: m.toList.filter fun entry => entry.1 ≠ k).Nodup := by
    rw [List.nodup_cons]
    exact ⟨by simp, (nodup_toList m).filter _⟩
  rw [List.perm_ext_iff_of_nodup (nodup_toList _) hnodup]
  intro entry
  obtain ⟨k', v'⟩ := entry
  rw [List.mem_cons, List.mem_filter, mem_toList_iff_getElem?_eq_some,
    mem_toList_iff_getElem?_eq_some, getElem?_insert]
  split
  next heq =>
    obtain rfl := LawfulEqCmp.eq_of_compare heq
    simp [eq_comm]
  next hne =>
    have hkey : k' ≠ k := by
      intro heq
      rw [heq] at hne
      exact hne compare_self
    simp [hkey]

theorem getElem?_insert_of_ne (m : ExtTreeMap α β) {k k' : α} (v : β) (hne : k' ≠ k) :
    (m.insert k' v)[k]? = m[k]? := by
  rw [getElem?_insert, if_neg]
  intro heq
  exact hne (LawfulEqCmp.eq_of_compare heq)

theorem getElem?_erase_of_ne (m : ExtTreeMap α β) {k k' : α} (hne : k' ≠ k) :
    (m.erase k')[k]? = m[k]? := by
  rw [getElem?_erase, if_neg]
  intro heq
  exact hne (LawfulEqCmp.eq_of_compare heq)

variable {ε : Type}

/-- Insert what each item comes to, if anything, one after the other. -/
def insertAll (f : ε → Option (α × β)) (m : ExtTreeMap α β) (items : List ε) : ExtTreeMap α β :=
  items.foldl (fun m item => (f item).elim m fun entry => m.insert entry.1 entry.2) m

/-- A key no item comes to keeps its entry. -/
theorem getElem?_insertAll_of_not_mem (f : ε → Option (α × β)) (m : ExtTreeMap α β)
    {items : List ε} {k : α} (hnone : ∀ item ∈ items, ∀ v, f item ≠ some (k, v)) :
    (insertAll f m items)[k]? = m[k]? := by
  induction items generalizing m with
  | nil => rfl
  | cons item rest ih =>
      have hrest := ih ((f item).elim m fun entry => m.insert entry.1 entry.2)
        fun later hlater => hnone later (by simp [hlater])
      refine hrest.trans ?_
      cases hitem : f item with
      | none => rfl
      | some entry =>
          obtain ⟨k', v⟩ := entry
          have hne : k' ≠ k := by
            rintro rfl
            exact hnone item (by simp) v hitem
          exact getElem?_insert_of_ne m v hne

/-- A key has the entry of an item that comes to it, when all such items agree. -/
theorem getElem?_insertAll_of_mem (f : ε → Option (α × β)) (m : ExtTreeMap α β)
    {items : List ε} {item : ε} {k : α} {v : β} (hmem : item ∈ items) (hitem : f item = some (k, v))
    (hagree : ∀ other ∈ items, ∀ v', f other = some (k, v') → v' = v) :
    (insertAll f m items)[k]? = some v := by
  induction items using List.reverseRecOn with
  | nil => simp at hmem
  | append_singleton init last ih =>
      have hsplit : insertAll f m (init ++ [last]) =
          (f last).elim (insertAll f m init) fun entry =>
            (insertAll f m init).insert entry.1 entry.2 := by
        simp [insertAll, List.foldl_append]
      rw [hsplit]
      -- the last item that comes to the key decides
      by_cases hlast : ∃ v', f last = some (k, v')
      · obtain ⟨v', hlast⟩ := hlast
        rw [hlast]
        simp [hagree last (by simp) v' hlast]
      · have hinit : item ∈ init := by
          rcases List.mem_append.mp hmem with hinit | hsingle
          · exact hinit
          · obtain rfl := List.mem_singleton.mp hsingle
            exact absurd ⟨v, hitem⟩ hlast
        have hrest := ih hinit fun other hother => hagree other (by simp [hother])
        cases hcase : f last with
        | none => simpa using hrest
        | some entry =>
            obtain ⟨k', v'⟩ := entry
            have hne : k' ≠ k := by
              rintro rfl
              exact hlast ⟨v', hcase⟩
            exact (getElem?_insert_of_ne _ v' hne).trans hrest

/-- Two ways of inserting agree on a key when every item brings the same there. -/
theorem getElem?_insertAll_congr {f g : ε → Option (α × β)} (m : ExtTreeMap α β) {items : List ε}
    {k : α} (hsame : ∀ item ∈ items, ∀ v, f item = some (k, v) ↔ g item = some (k, v)) :
    (insertAll f m items)[k]? = (insertAll g m items)[k]? := by
  have hsplit : ∀ (f : ε → Option (α × β)) (init : List ε) (last : ε),
      insertAll f m (init ++ [last]) = (f last).elim (insertAll f m init) fun entry =>
        (insertAll f m init).insert entry.1 entry.2 := by
    intro f init last
    simp [insertAll, List.foldl_append]
  -- an item that does not come to the key is passed over
  have hpassed : ∀ (f : ε → Option (α × β)) (init : List ε) (last : ε),
      (∀ v, f last ≠ some (k, v)) →
      (insertAll f m (init ++ [last]))[k]? = (insertAll f m init)[k]? := by
    intro f init last hnot
    rw [hsplit]
    cases hlast : f last with
    | none => rfl
    | some entry =>
        obtain ⟨k', v'⟩ := entry
        have hne : k' ≠ k := by
          rintro rfl
          exact hnot v' hlast
        exact getElem?_insert_of_ne _ v' hne
  induction items using List.reverseRecOn with
  | nil => rfl
  | append_singleton init last ih =>
      have hinit := ih fun item hitem => hsame item (by simp [hitem])
      by_cases hlast : ∃ v, f last = some (k, v)
      · obtain ⟨v, hf⟩ := hlast
        have hg := (hsame last (by simp) v).mp hf
        rw [hsplit, hsplit, hf, hg]
        simp
      · have hf : ∀ v, f last ≠ some (k, v) := not_exists.mp hlast
        have hg : ∀ v, g last ≠ some (k, v) := by
          intro v hv
          exact hf v ((hsame last (by simp) v).mpr hv)
        rw [hpassed f init last hf, hpassed g init last hg, hinit]

/-- A key some item comes to has the entry of such an item. -/
theorem exists_getElem?_insertAll (f : ε → Option (α × β)) (m : ExtTreeMap α β) {items : List ε}
    {k : α} (hsome : ∃ item ∈ items, ∃ v, f item = some (k, v)) :
    ∃ item ∈ items, ∃ v, f item = some (k, v) ∧ (insertAll f m items)[k]? = some v := by
  induction items using List.reverseRecOn with
  | nil =>
      obtain ⟨item, hmem, _⟩ := hsome
      cases hmem
  | append_singleton init last ih =>
      have hsplit : insertAll f m (init ++ [last]) =
          (f last).elim (insertAll f m init) fun entry =>
            (insertAll f m init).insert entry.1 entry.2 := by
        simp [insertAll, List.foldl_append]
      by_cases hlast : ∃ v, f last = some (k, v)
      · obtain ⟨v, hlast⟩ := hlast
        exact ⟨last, by simp, v, hlast, by simp [hsplit, hlast]⟩
      · obtain ⟨item, hmem, v, hitem⟩ := hsome
        have hinit : item ∈ init := by
          rcases List.mem_append.mp hmem with hinit | hsingle
          · exact hinit
          · obtain rfl := List.mem_singleton.mp hsingle
            exact absurd ⟨v, hitem⟩ hlast
        obtain ⟨found, hfound, v', hfrom, hlookup⟩ := ih ⟨item, hinit, v, hitem⟩
        refine ⟨found, by simp [hfound], v', hfrom, ?_⟩
        rw [hsplit]
        cases hcase : f last with
        | none => exact hlookup
        | some entry =>
            obtain ⟨k', v''⟩ := entry
            have hne : k' ≠ k := by
              rintro rfl
              exact hlast ⟨v'', hcase⟩
            exact (getElem?_insert_of_ne _ v'' hne).trans hlookup

end Std.ExtTreeMap
