import Mathlib.Data.List.Infix
import Mathlib.Tactic.Common

/-! # The LIKE operator of SQLite

`%` matches any text and `_` any one character; the escape character takes the
next one literally. A literal matches in either case if it is an ASCII letter.
-/

namespace Like

inductive Token where
  | any
  | one
  | literal (c : Char)
  deriving DecidableEq, Repr

/-- A pattern that ends in its escape character matches nothing. -/
def compile (escape : Char) : List Char → Option (List Token)
  | [] => some []
  | c :: rest =>
      if c = escape then
        match rest with
        | [] => none
        | d :: rest' => (compile escape rest').map (.literal d :: ·)
      else
        (compile escape rest).map
          ((if c = '%' then .any else if c = '_' then .one else .literal c) :: ·)

def accepts : List Token → List Char → Bool
  | [], text => text.isEmpty
  | .any :: tokens, text => text.tails.any (accepts tokens)
  | .one :: tokens, text =>
      match text with
      | [] => false
      | _ :: rest => accepts tokens rest
  | .literal c :: tokens, text =>
      match text with
      | [] => false
      | d :: rest => c.toLower = d.toLower && accepts tokens rest

/-- `text LIKE pattern ESCAPE escape` -/
def like (escape : Char) (pattern text : List Char) : Bool :=
  match compile escape pattern with
  | none => false
  | some tokens => accepts tokens text

/-- `replacingOccurrences` of a character by itself behind `escape`. -/
def replacing (escape target : Char) (text : List Char) : List Char :=
  text.flatMap fun c => if c = target then [escape, c] else [c]

/-- A text as a pattern for itself: the escape character, then both wildcards. -/
def escaped (escape : Char) (text : List Char) : List Char :=
  replacing escape '_' (replacing escape '%' (replacing escape escape text))

theorem escaped_cons (escape : Char) (hany : escape ≠ '%') (hone : escape ≠ '_') (c : Char)
    (text : List Char) :
    escaped escape (c :: text) =
      (if c = escape ∨ c = '%' ∨ c = '_' then [escape, c] else [c]) ++ escaped escape text := by
  by_cases hescape : c = escape
  · subst hescape
    simp [escaped, replacing, hany, hone]
  · by_cases hpercent : c = '%'
    · subst hpercent
      simp [escaped, replacing, hone, Ne.symm hany]
    · by_cases hunderscore : c = '_'
      · subst hunderscore
        simp [escaped, replacing, Ne.symm hone]
      · simp [escaped, replacing, hescape, hpercent, hunderscore]

theorem compile_escape_cons (escape c : Char) (rest : List Char) :
    compile escape (escape :: c :: rest) = (compile escape rest).map (.literal c :: ·) := by
  rw [compile, if_pos rfl]

theorem compile_plain_cons {escape c : Char} (hplain : ¬(c = escape ∨ c = '%' ∨ c = '_'))
    (rest : List Char) :
    compile escape (c :: rest) = (compile escape rest).map (.literal c :: ·) := by
  simp only [not_or] at hplain
  cases rest <;> simp only [compile, hplain, if_false]

theorem compile_escaped (escape : Char) (hany : escape ≠ '%') (hone : escape ≠ '_')
    (text pattern : List Char) :
    compile escape (escaped escape text ++ pattern) =
      (compile escape pattern).map (text.map .literal ++ ·) := by
  induction text with
  | nil => simp [escaped, replacing]
  | cons c rest ih =>
      rw [escaped_cons escape hany hone]
      split
      next =>
        rw [List.append_assoc, List.cons_append, List.cons_append, List.nil_append,
          compile_escape_cons, ih, Option.map_map]
        rfl
      next hplain =>
        rw [List.append_assoc, List.cons_append, List.nil_append, compile_plain_cons hplain, ih,
          Option.map_map]
        rfl

/-- Literals and `%` match what begins with them, up to the case of letters. -/
theorem accepts_literals_any (literals text : List Char) :
    accepts (literals.map .literal ++ [.any]) text =
      (literals.map Char.toLower).isPrefixOf (text.map Char.toLower) := by
  induction literals generalizing text with
  | nil => simp [accepts]
  | cons c rest ih =>
      cases text with
      | nil => rfl
      | cons d tail =>
          simp only [List.map_cons, List.cons_append, accepts, ih, List.isPrefixOf]
          rfl

/-- What an escaped text, one plain character and `%` match together. -/
theorem like_escaped (escape : Char) (hany : escape ≠ '%') (hone : escape ≠ '_')
    {sep : Char} (hsep : ¬(sep = escape ∨ sep = '%' ∨ sep = '_')) (text line : List Char) :
    like escape (escaped escape text ++ [sep, '%']) line =
      ((text ++ [sep]).map Char.toLower).isPrefixOf (line.map Char.toLower) := by
  have hpercent : compile escape ['%'] = some [.any] := by
    rw [compile, if_neg (Ne.symm hany)]
    rfl
  have hcompile : compile escape (escaped escape text ++ [sep, '%']) =
      some ((text ++ [sep]).map .literal ++ [.any]) := by
    rw [compile_escaped escape hany hone, compile_plain_cons hsep, hpercent]
    simp
  rw [like, hcompile]
  exact accepts_literals_any _ _

end Like
