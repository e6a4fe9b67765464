import ObSink.Lib.Text
import ObSink.Types

/-! # Ignore rules

`core/src/ignore.rs`: paths that never sync. One rule set is shared by the
walker, the watcher and the diff.
-/

namespace ObSink

def tempSuffix : String := ".obsink-tmp"

def defaultIgnore : List String :=
  [".obsink/", "*" ++ tempSuffix, ".obsidian/workspace.json", ".obsidian/workspace-mobile.json",
    ".trash/", ".DS_Store", ".git/"]

inductive Rule where
  /-- The directory of this name at the top level and everything in it. -/
  | dir (name : String)
  | suffix (text : String)
  /-- Exactly this vault-relative path, or what lies under it. -/
  | exact (path : String)
  /-- A path component equal to it, at any depth. -/
  | name (name : String)
  deriving DecidableEq, Repr

/-- Drop every leading `./`. -/
def dropDotSlash : List Char → List Char
  | '.' :: '/' :: rest => dropDotSlash rest
  | chars => chars

def Rule.parse (pattern : String) : Option Rule :=
  match dropDotSlash (Text.trim pattern).toList with
  | [] => none
  | c :: rest =>
      let pattern := c :: rest
      if pattern.getLast? = some '/' then
        if pattern.dropLast = [] then none else some (.dir (String.ofList pattern.dropLast))
      else if c = '*' then
        if rest = [] then none else some (.suffix (String.ofList rest))
      else if '/' ∈ pattern then some (.exact (String.ofList pattern))
      else some (.name (String.ofList pattern))

/-- The path itself, or a path under it. -/
def atOrUnder (dir path : String) : Bool :=
  path = dir || (dir.toList ++ ['/']).isPrefixOf path.toList

def Rule.matches : Rule → String → Bool
  | .dir top, path => atOrUnder top path
  | .suffix text, path => text.toList.isSuffixOf path.toList
  | .exact whole, path => atOrUnder whole path
  | .name part, path => (Text.splitOn '/' path.toList).any (· = part.toList)

/-- What is under a path is under everything the path is at or under. -/
theorem atOrUnder_below {top dir path : String} {tail : List Char}
    (hbelow : path.toList = dir.toList ++ '/' :: tail) (hdir : atOrUnder top dir = true) :
    atOrUnder top path = true := by
  simp only [atOrUnder, Bool.or_eq_true, decide_eq_true_eq, List.isPrefixOf_iff_prefix] at hdir ⊢
  right
  rcases hdir with rfl | hprefix
  · exact ⟨tail, by simp [hbelow]⟩
  · rw [hbelow]
    exact hprefix.trans (List.prefix_append _ _)

/-- Every rule but a suffix says of a path what it says of a directory above. -/
theorem Rule.matches_below {rule : Rule} {dir path : String} {tail : List Char}
    (hbelow : path.toList = dir.toList ++ '/' :: tail) (hdir : rule.matches dir = true) :
    rule.matches path = true ∨ ∃ text, rule = .suffix text := by
  cases rule with
  | dir top => exact Or.inl (atOrUnder_below hbelow hdir)
  | suffix text => exact Or.inr ⟨text, rfl⟩
  | exact whole => exact Or.inl (atOrUnder_below hbelow hdir)
  | name part =>
      left
      simp only [Rule.matches, List.any_eq_true, decide_eq_true_eq] at hdir ⊢
      obtain ⟨component, hmem, rfl⟩ := hdir
      refine ⟨part.toList, ?_, rfl⟩
      rw [hbelow, Text.splitOn_append]
      exact List.mem_append_left _ hmem

structure IgnoreRules where
  rules : List Rule
  deriving DecidableEq, Repr

namespace IgnoreRules

def fromPatterns (patterns : List String) : IgnoreRules where
  rules := patterns.filterMap Rule.parse

def defaults : IgnoreRules := fromPatterns defaultIgnore

/-- The defaults plus a vault's own patterns. -/
def withExtra (ignore : IgnoreRules) (patterns : List String) : IgnoreRules where
  rules := ignore.rules ++ patterns.filterMap Rule.parse

def isIgnored (ignore : IgnoreRules) (path : String) : Bool :=
  let path := String.ofList (path.toList.dropWhile (· = '/'))
  ignore.rules.any (·.matches path)

end IgnoreRules

end ObSink
