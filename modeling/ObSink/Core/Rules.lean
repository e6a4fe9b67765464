import ObSink.Lib.Text
import ObSink.Types

/-! # Decisions of a cycle that need no filesystem and no network

`core/src/sync_rules.rs`: how uploads are batched, how a conflict choice is
applied, what a `keepBoth` copy is called.
-/

namespace ObSink

def batchByteBudget : Nat := 32 * 1024 * 1024

def batchMaxOps : Nat := 64

/-- The rest of the batches once `index` sizes are behind, the open batch
having started at `start` with `bytes` so far. -/
def chunkFrom (index start bytes : Nat) : List Nat → List (Nat × Nat)
  | [] => if start < index then [(start, index)] else []
  | size :: rest =>
      if index > start ∧ (bytes + size > batchByteBudget ∨ index - start ≥ batchMaxOps) then
        (start, index) :: chunkFrom (index + 1) index size rest
      else
        chunkFrom (index + 1) start (bytes + size) rest

/-- Consecutive batches, each a range of indices. -/
def chunkUploads (sizes : List Nat) : List (Nat × Nat) :=
  chunkFrom 0 0 0 sizes

/-- `keepBoth` needs two live versions; with one side deleted it keeps the side
that still exists. -/
def effectiveChoice (choice : ConflictResolutionChoice) (conflict : Conflict) :
    ConflictResolutionChoice :=
  match choice with
  | .keepBoth =>
      if conflict.remoteEntry.deleted then .keepLocal
      else if conflict.localEntry.deleted then .keepRemote
      else .keepBoth
  | other => other

/-- The upload (or remote delete) that keeps the local side of a conflict. -/
def conflictToUpload (conflict : Conflict) : SyncAction where
  path := conflict.path
  kind := if conflict.localEntry.deleted then .deleteRemote else .upload
  localEntry := some conflict.localEntry
  remoteEntry := some conflict.remoteEntry

/-- The remote hash the server checks; a synthesized tombstone has none. -/
def parentHash (action : SyncAction) : Option String :=
  (action.remoteEntry.map FileEntry.hash).filter (· ≠ "")

/-! ## The name of a conflict copy -/

/-- A path component that counts: empty and `.` components do not. -/
def significant (part : List Char) : Bool := part ≠ [] && part ≠ ['.']

/-- Without the trailing components that do not count. -/
def trimParts (parts : List (List Char)) : List (List Char) :=
  (parts.reverse.dropWhile (!significant ·)).reverse

/-- Stem and extension of a file name: cut at the last dot, unless that dot
starts the name. -/
def splitAtDot (name : List Char) : List Char × Option (List Char) :=
  match (Text.splitOn '.' name).reverse with
  | [] | [_] => (name, none)
  | after :: before =>
      let before := ['.'].intercalate before.reverse
      if before = [] then (name, none) else (before, some after)

/-- The file name of a copy: `.conflict` goes before the extension. -/
def copyName : List Char × Option (List Char) → List Char
  | (stem, some extension) => stem ++ ".conflict.".toList ++ extension
  | (stem, none) => stem ++ ".conflict".toList

/-- The components of a path without its last one. -/
def copyParent (parts : List (List Char)) : List Char :=
  match parts.dropLast with
  | [] => []
  | [[]] => ['/']
  | first :: rest =>
      match trimParts rest with
      | [] => if first = [] then ['/'] else first
      | rest => ['/'].intercalate (first :: rest)

/-- Where `keepBoth` writes the remote version: `notes/today.conflict.md`. -/
def conflictCopyPath (original : String) : String :=
  let parts := trimParts (Text.splitOn '/' original.toList)
  let fileName := copyName
    (match parts.getLast? with
    | some last => if last = ['.', '.'] then (original.toList, none) else splitAtDot last
    | none => (original.toList, none))
  let parent := copyParent parts
  String.ofList (if parent = [] then fileName else parent ++ '/' :: fileName)

example : conflictCopyPath "notes/today.md" = "notes/today.conflict.md" := by decide

example : conflictCopyPath "todo" = "todo.conflict" := by decide

theorem intercalate_concat {sep : Char} {parts : List (List Char)} (hparts : parts ≠ [])
    (last : List Char) :
    [sep].intercalate (parts ++ [last]) = [sep].intercalate parts ++ sep :: last := by
  induction parts with
  | nil => exact absurd rfl hparts
  | cons part rest ih =>
      cases rest with
      | nil => simp [List.intercalate_cons_cons]
      | cons second others =>
          have hih := ih (by simp)
          simp only [List.cons_append, List.intercalate_cons_cons, List.append_assoc] at hih ⊢
          rw [hih]

/-- The parts a name was cut into, in order. -/
theorem splitAtDot_eq (name : List Char) :
    name = match splitAtDot name with
      | (stem, some extension) => stem ++ '.' :: extension
      | (stem, none) => stem := by
  unfold splitAtDot
  cases hparts : (Text.splitOn '.' name).reverse with
  | nil => rfl
  | cons after before =>
      cases before with
      | nil => rfl
      | cons second others =>
          simp only
          split
          next pair stem extension hpair =>
            split at hpair
            next => cases hpair
            next =>
              obtain ⟨rfl, hextension⟩ := Prod.mk.inj hpair
              obtain rfl := Option.some.inj hextension
              have hsplit : Text.splitOn '.' name = (second :: others).reverse ++ [after] := by
                rw [← List.reverse_cons, ← hparts, List.reverse_reverse]
              have hjoin := Text.intercalate_splitOn '.' name
              rw [hsplit] at hjoin
              exact hjoin.symm.trans (intercalate_concat (by simp) after)
          next pair stem hpair =>
            split at hpair
            next => exact (Prod.mk.inj hpair).1
            next => cases hpair

/-- A copy never has the name of its original. -/
theorem length_lt_copyName (name : List Char) :
    name.length < (copyName (splitAtDot name)).length := by
  have hname := splitAtDot_eq name
  split at hname
  next pair stem extension hpair =>
    rw [hpair, hname]
    simp [copyName]
  next pair stem hpair =>
    rw [hpair, hname]
    simp [copyName]

theorem mem_copyName {name : List Char} {c : Char} (hc : c ∈ copyName (splitAtDot name)) :
    c ∈ name ∨ c ∈ ".conflict.".toList := by
  have hname := splitAtDot_eq name
  split at hname
  next pair stem extension hpair =>
    rw [hpair] at hc
    simp only [copyName, List.mem_append] at hc
    rw [hname]
    simp only [List.mem_append, List.mem_cons]
    tauto
  next pair stem hpair =>
    rw [hpair] at hc
    simp only [copyName, List.mem_append] at hc
    rw [hname]
    refine hc.imp id fun hsuffix => ?_
    exact (List.dropLast_sublist _).subset (show c ∈ ".conflict.".toList.dropLast from hsuffix)

theorem mem_of_mem_intercalate {parts : List (List Char)} {c : Char}
    (hc : c ∈ ['/'].intercalate parts) : c = '/' ∨ ∃ part ∈ parts, c ∈ part := by
  induction parts with
  | nil => simp at hc
  | cons part rest ih =>
      cases rest with
      | nil => exact Or.inr ⟨part, by simp, by simpa using hc⟩
      | cons second others =>
          rw [List.intercalate_cons_cons] at hc
          simp only [List.append_assoc, List.mem_append, List.mem_singleton] at hc
          rcases hc with hpart | rfl | hrest
          · exact Or.inr ⟨part, by simp, hpart⟩
          · exact Or.inl rfl
          · refine (ih hrest).imp id ?_
            rintro ⟨found, hmem, hin⟩
            exact ⟨found, List.mem_cons_of_mem _ hmem, hin⟩

theorem mem_of_mem_trimParts {parts : List (List Char)} {part : List Char}
    (hpart : part ∈ trimParts parts) : part ∈ parts := by
  have hdrop := List.mem_reverse.mp hpart
  exact List.mem_reverse.mp ((List.dropWhile_sublist _).subset hdrop)

/-- What is not there at the end stays. -/
theorem trimParts_concat {parts : List (List Char)} {last : List Char}
    (hlast : significant last = true) : trimParts (parts ++ [last]) = parts ++ [last] := by
  simp [trimParts, hlast]

/-- A copy is never at the path of its original. -/
theorem conflictCopyPath_ne (original : String) : conflictCopyPath original ≠ original := by
  intro hsame
  let parts := trimParts (Text.splitOn '/' original.toList)
  have hchars := congrArg String.toList hsame
  simp only [conflictCopyPath, String.toList_ofList] at hchars
  have hlonger : ∀ parent : List Char,
      (if parent = [] then copyName (original.toList, none)
        else parent ++ '/' :: copyName (original.toList, none)) ≠ original.toList := by
    intro parent heq
    have hlength := congrArg List.length heq
    split at hlength
    · simp [copyName] at hlength
    · simp only [copyName, List.length_append, List.length_cons] at hlength
      omega
  cases hlast : parts.getLast? with
  | none =>
      simp only [show (trimParts (Text.splitOn '/' original.toList)).getLast? = none from hlast]
        at hchars
      exact hlonger _ hchars
  | some last =>
      simp only [show (trimParts (Text.splitOn '/' original.toList)).getLast? = some last
        from hlast] at hchars
      by_cases hdots : last = ['.', '.']
      · simp only [if_pos hdots] at hchars
        exact hlonger _ hchars
      · simp only [if_neg hdots] at hchars
        -- the copy's name is the last component of its path, so it would be `last` itself
        have hlastMem : last ∈ Text.splitOn '/' original.toList :=
          mem_of_mem_trimParts (List.mem_of_getLast? hlast)
        have hslash : '/' ∉ copyName (splitAtDot last) := by
          intro hmem
          rcases mem_copyName hmem with hin | hsuffix
          · exact (Text.mem_of_mem_splitOn hlastMem hin).2 rfl
          · exact absurd hsuffix (by decide)
        have hlong := length_lt_copyName last
        have hsig : significant (copyName (splitAtDot last)) = true := by
          have hfloor : 9 ≤ (copyName (splitAtDot last)).length := by
            rcases splitAtDot last with ⟨stem, _ | extension⟩
            · simp [copyName]
            · simp only [copyName, List.length_append]
              have hsuffix : ".conflict.".toList.length = 10 := rfl
              omega
          simp only [significant, Bool.and_eq_true, decide_eq_true_eq]
          constructor <;> (intro heq; rw [heq] at hfloor; simp at hfloor)
        have hparts : ∃ before, parts = before ++ [copyName (splitAtDot last)] := by
          by_cases hparent : copyParent parts = []
          · rw [if_pos hparent] at hchars
            refine ⟨[], ?_⟩
            change trimParts (Text.splitOn '/' original.toList) = _
            rw [← hchars, Text.splitOn_eq_singleton hslash]
            exact @trimParts_concat [] _ hsig
          · rw [if_neg hparent] at hchars
            refine ⟨Text.splitOn '/' (copyParent parts), ?_⟩
            change trimParts (Text.splitOn '/' original.toList) = _
            rw [← hchars, Text.splitOn_append, Text.splitOn_eq_singleton hslash]
            exact trimParts_concat hsig
        obtain ⟨before, hparts⟩ := hparts
        rw [hparts, List.getLast?_concat] at hlast
        have hself := congrArg List.length (Option.some.inj hlast)
        omega

theorem mem_copyParent {parts : List (List Char)} {c : Char} (hc : c ∈ copyParent parts) :
    c = '/' ∨ ∃ part ∈ parts, c ∈ part := by
  unfold copyParent at hc
  split at hc
  next => cases hc
  next => exact Or.inl (by simpa using hc)
  next first rest _ hparts =>
    have hsub : ∀ part ∈ first :: rest, part ∈ parts := by
      intro part hpart
      rw [← hparts] at hpart
      exact (List.dropLast_sublist _).subset hpart
    split at hc
    next =>
      split at hc
      next => exact Or.inl (by simpa using hc)
      next => exact Or.inr ⟨first, hsub first (by simp), hc⟩
    next =>
      refine (mem_of_mem_intercalate hc).imp id ?_
      rintro ⟨part, hpart, hin⟩
      refine ⟨part, hsub part ?_, hin⟩
      rcases List.mem_cons.mp hpart with rfl | htrimmed
      · simp
      · exact List.mem_cons_of_mem _ (mem_of_mem_trimParts htrimmed)

/-- A copy's path has the characters of its original, a slash, and those of
`.conflict.`. -/
theorem mem_conflictCopyPath {original : String} {c : Char}
    (hc : c ∈ (conflictCopyPath original).toList) :
    c ∈ original.toList ∨ c = '/' ∨ c ∈ ".conflict.".toList := by
  let parts := trimParts (Text.splitOn '/' original.toList)
  have hpart : ∀ part ∈ parts, c ∈ part → c ∈ original.toList := by
    intro part hpart hin
    exact (Text.mem_of_mem_splitOn (mem_of_mem_trimParts hpart) hin).1
  have hplainName : c ∈ copyName (original.toList, none) →
      c ∈ original.toList ∨ c = '/' ∨ c ∈ ".conflict.".toList := by
    intro hin
    rcases List.mem_append.mp hin with hin | hsuffix
    · exact Or.inl hin
    · exact Or.inr (Or.inr ((List.dropLast_sublist _).subset
        (show c ∈ ".conflict.".toList.dropLast from hsuffix)))
  have hname : c ∈ copyName
      (match parts.getLast? with
      | some last => if last = ['.', '.'] then (original.toList, none) else splitAtDot last
      | none => (original.toList, none)) →
      c ∈ original.toList ∨ c = '/' ∨ c ∈ ".conflict.".toList := by
    intro hin
    split at hin
    next last hlast =>
      split at hin
      next => exact hplainName hin
      next =>
        rcases mem_copyName hin with hin | hsuffix
        · exact Or.inl (hpart last (List.mem_of_getLast? hlast) hin)
        · exact Or.inr (Or.inr hsuffix)
    next => exact hplainName hin
  simp only [conflictCopyPath, String.toList_ofList] at hc
  split at hc
  next => exact hname hc
  next =>
    rcases List.mem_append.mp hc with hparent | hrest
    · rcases mem_copyParent hparent with hslash | ⟨part, hmem, hin⟩
      · exact Or.inr (Or.inl hslash)
      · exact Or.inl (hpart part hmem hin)
    · rcases List.mem_cons.mp hrest with hslash | hin
      · exact Or.inr (Or.inl hslash)
      · exact hname hin

/-! ## Batches cover the uploads -/

/-- The members of a range. -/
def slice {α : Type} (items : List α) (range : Nat × Nat) : List α :=
  (items.drop range.1).take (range.2 - range.1)

theorem slice_append {α : Type} (items : List α) {a b c : Nat} (hab : a ≤ b) (hbc : b ≤ c) :
    slice items (a, b) ++ slice items (b, c) = slice items (a, c) := by
  simp only [slice]
  have hsplit : c - a = (b - a) + (c - b) := by omega
  have hdrop : items.drop b = (items.drop a).drop (b - a) := by
    rw [List.drop_drop]
    congr 1
    omega
  rw [hsplit, hdrop, List.take_add]

theorem chunkFrom_flatMap {α : Type} (items : List α) (sizes : List Nat) {index start bytes : Nat}
    (hstart : start ≤ index) :
    (chunkFrom index start bytes sizes).flatMap (slice items) =
      slice items (start, index + sizes.length) := by
  induction sizes generalizing index start bytes with
  | nil =>
      unfold chunkFrom
      split
      next => simp
      next hnot =>
        have heq : start = index := by omega
        simp [slice, heq]
  | cons size rest ih =>
      unfold chunkFrom
      have hlength : index + (size :: rest).length = index + 1 + rest.length := by
        simp only [List.length_cons]
        omega
      rw [hlength]
      split
      next hfull =>
        rw [List.flatMap_cons, ih (by omega)]
        exact slice_append items hstart (by omega)
      next => exact ih (by omega)

/-- The batches, one after the other, are the whole list. -/
theorem chunkUploads_flatMap {α : Type} (items : List α) (size : α → Nat) :
    (chunkUploads (items.map size)).flatMap (slice items) = items := by
  rw [chunkUploads, chunkFrom_flatMap items _ (Nat.le_refl 0)]
  simp [slice]

end ObSink
