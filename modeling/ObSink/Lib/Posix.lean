import ObSink.Lib.Text

/-! # Paths to locations

A location is the list of names on the way from `/`. A path is split at `/`;
empty and dot components stay where they are, a parent component goes up, and at
`/` nothing is above. Links are not followed.
-/

namespace Posix

/-- A name that a directory can hold. -/
structure IsName (name : String) : Prop where
  ne_empty : name ≠ ""
  ne_dot : name ≠ "."
  ne_parent : name ≠ ".."
  no_slash : '/' ∉ name.toList

instance (name : String) : Decidable (IsName name) :=
  decidable_of_iff (name ≠ "" ∧ name ≠ "." ∧ name ≠ ".." ∧ '/' ∉ name.toList)
    ⟨fun ⟨h₁, h₂, h₃, h₄⟩ => ⟨h₁, h₂, h₃, h₄⟩, fun ⟨h₁, h₂, h₃, h₄⟩ => ⟨h₁, h₂, h₃, h₄⟩⟩

/-- What stands between the separators. -/
def components (path : String) : List String :=
  (Text.splitOn '/' path.toList).map String.ofList

/-- Take one component. -/
def go (location : List String) (name : String) : List String :=
  if name = "" ∨ name = "." then location
  else if name = ".." then location.dropLast
  else location ++ [name]

def IsAbsolute (path : String) : Prop := path.toList.head? = some '/'

instance (path : String) : Decidable (IsAbsolute path) :=
  inferInstanceAs (Decidable (path.toList.head? = some '/'))

/-- Where a path joined to a root leads; an absolute path takes the place of the
root. -/
def join (root : List String) (path : String) : List String :=
  (components path).foldl go (if IsAbsolute path then [] else root)

theorem IsName.go {name : String} (hname : IsName name) (location : List String) :
    go location name = location ++ [name] := by
  simp [Posix.go, hname.ne_empty, hname.ne_dot, hname.ne_parent]

theorem mem_of_mem_components {path name : String} (hname : name ∈ components path) {c : Char}
    (hc : c ∈ name.toList) : c ∈ path.toList := by
  obtain ⟨chars, hchars, rfl⟩ := List.mem_map.mp hname
  rw [String.toList_ofList] at hc
  exact (Text.mem_of_mem_splitOn hchars hc).1

/-- Names joined by separators come apart again. -/
theorem components_intercalate {names : List String} (hne : names ≠ [])
    (hslash : ∀ name ∈ names, '/' ∉ name.toList) :
    components (String.intercalate "/" names) = names := by
  induction names with
  | nil => exact absurd rfl hne
  | cons name rest ih =>
      have hname := hslash name List.mem_cons_self
      cases rest with
      | nil =>
          rw [String.intercalate_singleton, components, Text.splitOn_eq_singleton hname,
            List.map_singleton, String.ofList_toList]
      | cons next others =>
          have hrest := ih (by simp) fun other hother =>
            hslash other (List.mem_cons_of_mem _ hother)
          have hchars : (String.intercalate "/" (name :: next :: others)).toList =
              name.toList ++ '/' :: (String.intercalate "/" (next :: others)).toList := by
            rw [String.intercalate_cons_cons]
            simp
          rw [components, hchars, Text.splitOn_append, Text.splitOn_eq_singleton hname,
            List.singleton_append, List.map_cons, String.ofList_toList]
          exact congrArg (name :: ·) hrest

theorem not_isAbsolute_intercalate {names : List String} (hnames : ∀ name ∈ names, IsName name) :
    ¬ IsAbsolute (String.intercalate "/" names) := by
  cases names with
  | nil => decide
  | cons name rest =>
      have hname := hnames name List.mem_cons_self
      have hhead : (String.intercalate "/" (name :: rest)).toList.head? = name.toList.head? := by
        cases hchars : name.toList with
        | nil => exact absurd (String.toList_eq_nil_iff.mp hchars) hname.ne_empty
        | cons c chars =>
            cases rest with
            | nil => simp [String.intercalate_singleton, hchars]
            | cons next others => simp [String.intercalate_cons_cons, hchars]
      intro habsolute
      rw [IsAbsolute, hhead] at habsolute
      exact hname.no_slash (List.mem_of_mem_head? habsolute)

theorem foldl_go_of_names {names : List String} (hnames : ∀ name ∈ names, IsName name)
    (location : List String) : names.foldl go location = location ++ names := by
  induction names generalizing location with
  | nil => simp
  | cons name rest ih =>
      rw [List.foldl_cons, (hnames name List.mem_cons_self).go,
        ih fun other hother => hnames other (List.mem_cons_of_mem _ hother)]
      simp

/-- A path of names leads down along them. -/
theorem join_intercalate {names : List String} (hne : names ≠ [])
    (hnames : ∀ name ∈ names, IsName name) (root : List String) :
    join root (String.intercalate "/" names) = root ++ names := by
  rw [join, if_neg (not_isAbsolute_intercalate hnames),
    components_intercalate hne fun name hname => (hnames name hname).no_slash,
    foldl_go_of_names hnames]

/-- What is left of the location, and then components of the path. -/
theorem foldl_go_split (names location : List String) :
    ∃ kept new, kept <+: location ∧ names.foldl go location = kept ++ new ∧ new ⊆ names := by
  induction names generalizing location with
  | nil => exact ⟨location, [], List.prefix_rfl, by simp⟩
  | cons name rest ih =>
      obtain ⟨kept, new, hkept, hresult, hnew⟩ := ih (go location name)
      have hmore : new ⊆ name :: rest := List.subset_cons_of_subset name hnew
      unfold go at hkept
      split at hkept
      next => exact ⟨kept, new, hkept, hresult, hmore⟩
      next =>
        split at hkept
        next => exact ⟨kept, new, hkept.trans (List.dropLast_prefix location), hresult, hmore⟩
        next =>
          rcases List.prefix_concat_iff.mp hkept with rfl | hbefore
          · exact ⟨location, name :: new, List.prefix_rfl, by simp [hresult], by simp [hnew]⟩
          · exact ⟨kept, new, hbefore, hresult, hmore⟩

/-- What a path leads to below the root is spelled by its components. -/
theorem subset_components_of_join {root names : List String} {path : String}
    (hjoin : join root path = root ++ names) : names ⊆ components path := by
  obtain ⟨kept, new, hkept, hresult, hnew⟩ :=
    foldl_go_split (components path) (if IsAbsolute path then [] else root)
  have hprefix : kept <+: root := by
    split at hkept
    next => exact (List.prefix_nil.mp hkept) ▸ List.nil_prefix
    next => exact hkept
  have hsame : kept ++ new = root ++ names := hresult.symm.trans hjoin
  obtain ⟨gone, rfl⟩ := hprefix
  rw [List.append_assoc, List.append_cancel_left_eq] at hsame
  exact List.Subset.trans (hsame ▸ List.subset_append_right gone names) hnew

/-! ## Files below a directory -/

section Below

variable (same : String → String)

/-- The location is below the directory. Names are one entry when `same` agrees on
them, as where case makes no difference. -/
def Below (dir location : List String) : Prop :=
  dir.map same <+: location.map same ∧ dir.length < location.length

instance (dir location : List String) : Decidable (Below same dir location) :=
  inferInstanceAs (Decidable (_ ∧ _))

/-- The file that is read or removed under a path from a root: none when the path
does not end in a name, or leads to the root or a directory above it. -/
def file? (root : List String) (path : String) : Option (List String) :=
  if ((components path).getLast?.any fun name => IsName name) = true ∧
      ¬ (join root path).map same <+: root.map same then some (join root path)
  else none

/-- The file a new content goes to. Empty and dot components at the end of the path
do not count here, and the content is first put beside the file. -/
def written? (root : List String) (path : String) : Option (List String) :=
  match ((components path).filter fun name => name ≠ "" ∧ name ≠ ".").getLast? with
  | some ".." => none
  | _ => if join root path = [] then none else some (join root path)

/-- Where a file can be read, one can be written. -/
theorem written?_of_file? {root location : List String} {path : String}
    (hfile : file? same root path = some location) : written? root path = some location := by
  unfold file? at hfile
  split at hfile
  next hnames =>
    obtain ⟨hlast, hbelow⟩ := hnames
    obtain rfl := Option.some.inj hfile
    rw [Option.any_eq_true] at hlast
    obtain ⟨name, hlast, hname⟩ := hlast
    rw [decide_eq_true_eq] at hname
    obtain ⟨before, hparts⟩ := List.getLast?_eq_some_iff.mp hlast
    have hne : join root path ≠ [] := by
      intro hnil
      apply hbelow
      simp [hnil]
    have hkept : ((components path).filter fun name => name ≠ "" ∧ name ≠ ".").getLast? =
        some name := by
      rw [hparts, List.filter_append]
      simp [hname.ne_empty, hname.ne_dot]
    unfold written?
    rw [hkept]
    split
    next heq => exact absurd (Option.some.inj heq) hname.ne_parent
    next => rw [if_neg hne]
  next => cases hfile

end Below

end Posix
