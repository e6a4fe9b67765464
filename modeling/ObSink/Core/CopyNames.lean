import ObSink.Core.Rules
import Mathlib.Order.Monotone.Basic

/-! # Conflict copies by name

On paths of names, `conflict_copy_path` keeps the directory and the extension and
gives no two files the same copy.
-/

namespace ObSink

/-- A component that names a file. -/
def IsNormal (part : List Char) : Prop := part ≠ [] ∧ part ≠ ['.'] ∧ part ≠ ['.', '.']

/-- A relative path of normal components. -/
def NormalPath (path : String) : Prop := ∀ part ∈ Text.splitOn '/' path.toList, IsNormal part

instance (part : List Char) : Decidable (IsNormal part) :=
  inferInstanceAs (Decidable (_ ∧ _ ∧ _))

instance (path : String) : Decidable (NormalPath path) :=
  inferInstanceAs (Decidable (∀ part ∈ Text.splitOn '/' path.toList, IsNormal part))

/-- The components of the directory a path is in. -/
def directory (path : String) : List (List Char) := (Text.splitOn '/' path.toList).dropLast

def fileName (path : String) : List Char := (Text.splitOn '/' path.toList).getLastD []

def extension (path : String) : Option (List Char) := (splitAtDot (fileName path)).2

/-! ## Names -/

/-- A name is cut at its last dot, if something stands before it. -/
theorem splitAtDot_concat {stem extension : List Char} (hstem : stem ≠ [])
    (hdot : '.' ∉ extension) :
    splitAtDot (stem ++ '.' :: extension) = (stem, some extension) := by
  unfold splitAtDot
  rw [Text.splitOn_append, Text.splitOn_eq_singleton hdot, List.reverse_concat]
  cases hparts : (Text.splitOn '.' stem).reverse with
  | nil => exact absurd (List.reverse_eq_nil_iff.mp hparts) (Text.splitOn_ne_nil '.' stem)
  | cons part rest =>
      have hjoin : ['.'].intercalate (part :: rest).reverse = stem := by
        rw [← hparts, List.reverse_reverse]
        exact Text.intercalate_splitOn '.' stem
      simp only [hjoin, if_neg hstem]

theorem splitAtDot_some {name stem extension : List Char}
    (hsplit : splitAtDot name = (stem, some extension)) :
    name = stem ++ '.' :: extension ∧ stem ≠ [] ∧ '.' ∉ extension := by
  have hname := splitAtDot_eq name
  rw [hsplit] at hname
  refine ⟨hname, ?_, ?_⟩
  · rintro rfl
    unfold splitAtDot at hsplit
    split at hsplit
    next => cases hsplit
    next => cases hsplit
    next =>
      simp only at hsplit
      split at hsplit
      next => cases hsplit
      next hne => exact hne (Prod.mk.inj hsplit).1
  · intro hdot
    unfold splitAtDot at hsplit
    split at hsplit
    next => cases hsplit
    next => cases hsplit
    next after before _ hparts =>
      simp only at hsplit
      split at hsplit
      next => cases hsplit
      next =>
        have hafter : after = extension := Option.some.inj (Prod.mk.inj hsplit).2
        have hmem : extension ∈ Text.splitOn '.' name := by
          rw [← List.mem_reverse, hparts, hafter]
          exact List.mem_cons_self
        exact (Text.mem_of_mem_splitOn hmem hdot).2 rfl

theorem splitAtDot_none {name stem : List Char} (hsplit : splitAtDot name = (stem, none)) :
    stem = name := by
  have hname := splitAtDot_eq name
  rw [hsplit] at hname
  exact hname.symm

/-- The parts of a copy's name. -/
theorem splitAtDot_copyName {name : List Char} (hname : name ≠ []) :
    splitAtDot (copyName (splitAtDot name)) =
      match splitAtDot name with
      | (stem, some extension) => (stem ++ ".conflict".toList, some extension)
      | (stem, none) => (stem, some "conflict".toList) := by
  rcases hsplit : splitAtDot name with ⟨stem, _ | extension⟩
  · have hstem : stem ≠ [] := by
      rw [splitAtDot_none hsplit]
      exact hname
    exact splitAtDot_concat hstem (by decide)
  · obtain ⟨_, hstem, hdot⟩ := splitAtDot_some hsplit
    have hcopy : copyName (stem, some extension) = (stem ++ ".conflict".toList) ++ '.' ::
        extension := by
      simp [copyName]
    simp only
    rw [hcopy]
    exact splitAtDot_concat (List.append_ne_nil_of_left_ne_nil hstem _) hdot

/-- Different names have different copies. -/
theorem copyName_injective {first second : List Char} (hfirst : first ≠ []) (hsecond : second ≠ [])
    (hsame : copyName (splitAtDot first) = copyName (splitAtDot second)) : first = second := by
  have hparts := congrArg splitAtDot hsame
  rw [splitAtDot_copyName hfirst, splitAtDot_copyName hsecond] at hparts
  -- a name without an extension is never a stem with the marker
  have hmixed : ∀ {plain other stem : List Char}, splitAtDot plain = (plain, none) →
      splitAtDot other = (stem, some "conflict".toList) → plain ≠ stem ++ ".conflict".toList := by
    rintro plain other stem hplain hother rfl
    have hstem := (splitAtDot_some hother).2.1
    rw [show stem ++ ".conflict".toList = stem ++ '.' :: "conflict".toList from rfl,
      splitAtDot_concat hstem (by decide)] at hplain
    cases (Prod.mk.inj hplain).2
  rcases hsplit : splitAtDot first with ⟨stem, _ | extension⟩
  · obtain rfl := splitAtDot_none hsplit
    rcases hother : splitAtDot second with ⟨stem', _ | extension'⟩
    · obtain rfl := splitAtDot_none hother
      rw [hsplit, hother] at hparts
      exact (Prod.mk.inj hparts).1
    · rw [hsplit, hother] at hparts
      obtain ⟨hstem, hextension⟩ := Prod.mk.inj hparts
      obtain rfl := Option.some.inj hextension
      exact absurd hstem (hmixed hsplit hother)
  · rcases hother : splitAtDot second with ⟨stem', _ | extension'⟩
    · obtain rfl := splitAtDot_none hother
      rw [hsplit, hother] at hparts
      obtain ⟨hstem, hextension⟩ := Prod.mk.inj hparts
      obtain rfl := Option.some.inj hextension
      exact absurd hstem.symm (hmixed hother hsplit)
    · rw [hsplit, hother] at hparts
      obtain ⟨hstem, hextension⟩ := Prod.mk.inj hparts
      rw [(splitAtDot_some hsplit).1, (splitAtDot_some hother).1, List.append_cancel_right hstem,
        Option.some.inj hextension]

/-- The name of a copy is the name of a file. -/
theorem isNormal_copyName (name : List Char) : IsNormal (copyName (splitAtDot name)) := by
  have hlength : 9 ≤ (copyName (splitAtDot name)).length := by
    rcases splitAtDot name with ⟨stem, _ | extension⟩
    · simp [copyName]
    · simp only [copyName, List.length_append]
      have hmarker : ".conflict.".toList.length = 10 := rfl
      omega
  refine ⟨?_, ?_, ?_⟩
  all_goals
    intro heq
    rw [heq] at hlength
    simp at hlength

theorem no_slash_copyName {name : List Char} (hslash : '/' ∉ name) :
    '/' ∉ copyName (splitAtDot name) := by
  intro hmem
  rcases mem_copyName hmem with hname | hmarker
  · exact hslash hname
  · exact absurd hmarker (by decide)

/-! ## Paths -/

section Paths

variable {path : String}

theorem splitOn_eq_directory (path : String) :
    Text.splitOn '/' path.toList = directory path ++ [fileName path] := by
  have hne := Text.splitOn_ne_nil '/' path.toList
  rw [directory, fileName, List.getLastD_eq_getLast?, List.getLast?_eq_some_getLast hne,
    Option.getD_some]
  exact (List.dropLast_concat_getLast hne).symm

theorem NormalPath.directory (hpath : NormalPath path) :
    ∀ part ∈ directory path, IsNormal part := by
  intro part hmem
  apply hpath
  rw [splitOn_eq_directory]
  exact List.mem_append_left _ hmem

theorem NormalPath.fileName (hpath : NormalPath path) : IsNormal (fileName path) := by
  apply hpath
  rw [splitOn_eq_directory]
  exact List.mem_append_right _ List.mem_cons_self

theorem no_slash_directory {part : List Char} (hmem : part ∈ directory path) : '/' ∉ part := by
  intro hslash
  have hpart : part ∈ Text.splitOn '/' path.toList := (List.dropLast_sublist _).subset hmem
  exact (Text.mem_of_mem_splitOn hpart hslash).2 rfl

theorem no_slash_fileName : '/' ∉ fileName path := by
  intro hslash
  have hpart : fileName path ∈ Text.splitOn '/' path.toList := by
    rw [splitOn_eq_directory]
    exact List.mem_append_right _ List.mem_cons_self
  exact (Text.mem_of_mem_splitOn hpart hslash).2 rfl

theorem IsNormal.counts {part : List Char} (hpart : IsNormal part) : significant part = true := by
  unfold significant
  rw [decide_eq_true hpart.1, decide_eq_true hpart.2.1]
  rfl

theorem trimParts_normal {parts : List (List Char)} (hparts : ∀ part ∈ parts, IsNormal part) :
    trimParts parts = parts := by
  rcases List.eq_nil_or_concat parts with rfl | ⟨before, last, rfl⟩
  · rfl
  · rw [List.concat_eq_append] at hparts ⊢
    exact trimParts_concat (hparts last (by simp)).counts

theorem copyParent_normal {parts : List (List Char)} (hparts : ∀ part ∈ parts, IsNormal part)
    (last : List Char) : copyParent (parts ++ [last]) = ['/'].intercalate parts := by
  unfold copyParent
  rw [List.dropLast_concat]
  cases parts with
  | nil => rfl
  | cons first rest =>
      have hfirst := hparts first List.mem_cons_self
      have hrest : trimParts rest = rest :=
        trimParts_normal fun part hmem => hparts part (List.mem_cons_of_mem _ hmem)
      split
      next heq => cases heq
      next heq => exact absurd (List.cons.inj heq).1 hfirst.1
      next first' rest' _ heq =>
        obtain ⟨rfl, rfl⟩ := List.cons.inj heq
        rw [hrest]
        split
        next => rw [if_neg hfirst.1, List.intercalate_singleton]
        next => rfl

/-- Components joined by slashes come apart again. -/
theorem splitOn_intercalate {parts : List (List Char)} (hne : parts ≠ [])
    (hslash : ∀ part ∈ parts, '/' ∉ part) : Text.splitOn '/' (['/'].intercalate parts) = parts := by
  induction parts with
  | nil => exact absurd rfl hne
  | cons part rest ih =>
      have hpart := Text.splitOn_eq_singleton (hslash part List.mem_cons_self)
      cases rest with
      | nil => rw [List.intercalate_singleton, hpart]
      | cons next others =>
          have hrest := ih (by simp) fun other hmem => hslash other (List.mem_cons_of_mem _ hmem)
          rw [List.intercalate_cons_cons, List.append_assoc, List.singleton_append,
            Text.splitOn_append, hpart, hrest]
          rfl

/-- The copy of a path of names is beside it, under the copy of its name. -/
theorem conflictCopyPath_normal (hpath : NormalPath path) :
    conflictCopyPath path = String.ofList
      (['/'].intercalate (directory path ++ [copyName (splitAtDot (fileName path))])) := by
  have hname := hpath.fileName
  have hparts : trimParts (Text.splitOn '/' path.toList) = directory path ++ [fileName path] := by
    rw [splitOn_eq_directory]
    exact trimParts_concat hname.counts
  have hparent := copyParent_normal hpath.directory (fileName path)
  simp only [conflictCopyPath, hparts, List.getLast?_concat, if_neg hname.2.2, hparent]
  by_cases hdir : directory path = []
  · simp [hdir]
  · have hne : ['/'].intercalate (directory path) ≠ [] := by
      intro heq
      have hsplit := splitOn_intercalate hdir fun part hmem => no_slash_directory hmem
      rw [heq] at hsplit
      exact (hpath.directory [] (hsplit ▸ List.mem_singleton.mpr rfl)).1 rfl
    rw [if_neg hne, intercalate_concat hdir]

/-- The components of a copy's path. -/
theorem splitOn_conflictCopyPath (hpath : NormalPath path) :
    Text.splitOn '/' (conflictCopyPath path).toList =
      directory path ++ [copyName (splitAtDot (fileName path))] := by
  rw [conflictCopyPath_normal hpath, String.toList_ofList]
  apply splitOn_intercalate (by simp)
  intro part hmem
  rcases List.mem_append.mp hmem with hdir | hcopy
  · exact no_slash_directory hdir
  · rw [List.mem_singleton.mp hcopy]
    exact no_slash_copyName no_slash_fileName

theorem directory_conflictCopyPath (hpath : NormalPath path) :
    directory (conflictCopyPath path) = directory path := by
  rw [directory, splitOn_conflictCopyPath hpath, List.dropLast_concat]

theorem fileName_conflictCopyPath (hpath : NormalPath path) :
    fileName (conflictCopyPath path) = copyName (splitAtDot (fileName path)) := by
  rw [fileName, splitOn_conflictCopyPath hpath, List.getLastD_concat]

theorem NormalPath.conflictCopyPath (hpath : NormalPath path) :
    NormalPath (conflictCopyPath path) := by
  intro part hmem
  rw [splitOn_conflictCopyPath hpath] at hmem
  rcases List.mem_append.mp hmem with hdir | hcopy
  · exact hpath.directory part hdir
  · rw [List.mem_singleton.mp hcopy]
    exact isNormal_copyName _

/-- A path is its directory and its name. -/
theorem path_eq_of_parts {first second : String} (hdir : directory first = directory second)
    (hname : fileName first = fileName second) : first = second := by
  have hparts : Text.splitOn '/' first.toList = Text.splitOn '/' second.toList := by
    rw [splitOn_eq_directory, splitOn_eq_directory, hdir, hname]
  have hchars := congrArg (['/'].intercalate ·) hparts
  simp only [Text.intercalate_splitOn] at hchars
  exact String.toList_inj.mp hchars

theorem conflictCopyPath_injective {first second : String} (hfirst : NormalPath first)
    (hsecond : NormalPath second) (hsame : conflictCopyPath first = conflictCopyPath second) :
    first = second := by
  apply path_eq_of_parts
  · rw [← directory_conflictCopyPath hfirst, hsame, directory_conflictCopyPath hsecond]
  · apply copyName_injective hfirst.fileName.1 hsecond.fileName.1
    rw [← fileName_conflictCopyPath hfirst, hsame, fileName_conflictCopyPath hsecond]

theorem extension_conflictCopyPath (hpath : NormalPath path) {found : List Char}
    (hfound : extension path = some found) : extension (conflictCopyPath path) = some found := by
  rw [extension, fileName_conflictCopyPath hpath, splitAtDot_copyName hpath.fileName.1]
  unfold extension at hfound
  split
  next stem extension hsplit =>
    rw [hsplit] at hfound
    exact hfound
  next stem hsplit =>
    rw [hsplit] at hfound
    cases hfound

/-! ## Copies of copies -/

theorem NormalPath.iterate (hpath : NormalPath path) (n : Nat) :
    NormalPath (ObSink.conflictCopyPath^[n] path) := by
  induction n with
  | zero => exact hpath
  | succ n ih =>
      rw [Function.iterate_succ_apply']
      exact ih.conflictCopyPath

theorem length_fileName_iterate (hpath : NormalPath path) :
    StrictMono fun n => (fileName (ObSink.conflictCopyPath^[n] path)).length := by
  apply strictMono_nat_of_lt_succ
  intro n
  rw [Function.iterate_succ_apply', fileName_conflictCopyPath (hpath.iterate n)]
  exact length_lt_copyName _

end Paths

/-- Copies of paths of names are all different, each is beside its original, with the
same extension if there is one, and no copy of a copy ever has a name again. -/
theorem conflict_copies_never_meet :
    (∀ first second, NormalPath first → NormalPath second → first ≠ second →
      conflictCopyPath first ≠ conflictCopyPath second) ∧
    ∀ path, NormalPath path →
      conflictCopyPath path ≠ path ∧ NormalPath (conflictCopyPath path) ∧
      directory (conflictCopyPath path) = directory path ∧
      (∀ found, extension path = some found → extension (conflictCopyPath path) = some found) ∧
      Function.Injective fun n => conflictCopyPath^[n] path := by
  constructor
  · intro first second hfirst hsecond hne hsame
    exact hne (conflictCopyPath_injective hfirst hsecond hsame)
  · intro path hpath
    refine ⟨conflictCopyPath_ne path, hpath.conflictCopyPath,
      directory_conflictCopyPath hpath, ?_, ?_⟩
    · intro found hfound
      exact extension_conflictCopyPath hpath hfound
    · intro m n hsame
      apply (length_fileName_iterate hpath).injective
      exact congrArg (fun path => (fileName path).length) hsame

/-- Copies of a note, of its copy, and of a file without an extension. -/
theorem copies_of_notes_never_meet :
    conflictCopyPath "a/b.md" ≠ conflictCopyPath "a/b.conflict.md" ∧
      directory (conflictCopyPath "a/.b") = ["a".toList] := by
  have hnormal : NormalPath "a/b.md" ∧ NormalPath "a/b.conflict.md" ∧ NormalPath "a/.b" := by
    unfold NormalPath IsNormal
    decide
  obtain ⟨hnote, hcopy, hplain⟩ := hnormal
  refine ⟨conflict_copies_never_meet.1 _ _ hnote hcopy (by decide), ?_⟩
  exact (conflict_copies_never_meet.2 _ hplain).2.2.1.trans (by decide)

end ObSink
