import Mathlib.Algebra.Order.Ring.Nat
import Mathlib.Data.List.Basic
import Mathlib.Tactic.Common

/-! # Text as character lists

Trimming by the Unicode `White_Space` property, splitting at a character, and
decimal numerals as names. Everything is defined over character lists, so that
it evaluates.
-/

namespace Text

/-- The Unicode `White_Space` property. -/
def isWhitespace (c : Char) : Bool :=
  let n := c.toNat
  (9 ≤ n && n ≤ 13) || n = 32 || n = 0x85 || n = 0xA0 || n = 0x1680 ||
    (0x2000 ≤ n && n ≤ 0x200A) || n = 0x2028 || n = 0x2029 || n = 0x202F ||
    n = 0x205F || n = 0x3000

/-- Drop leading and trailing white space. -/
def trim (s : String) : String :=
  String.ofList ((s.toList.dropWhile isWhitespace).reverse.dropWhile isWhitespace).reverse

theorem trim_eq_self {s : String} (hsolid : ∀ c ∈ s.toList, isWhitespace c = false) :
    trim s = s := by
  have hkeep : ∀ chars : List Char, (∀ c ∈ chars, isWhitespace c = false) →
      chars.dropWhile isWhitespace = chars := by
    intro chars hchars
    cases chars with
    | nil => rfl
    | cons c rest => simp [hchars c (by simp)]
  rw [trim, hkeep _ hsolid, hkeep _ (by simpa using hsolid), List.reverse_reverse,
    String.ofList_toList]

/-- The parts of a text between occurrences of `sep`; never empty. -/
def splitOn (sep : Char) : List Char → List (List Char)
  | [] => [[]]
  | c :: rest =>
      if c = sep then [] :: splitOn sep rest
      else
        match splitOn sep rest with
        | [] => [[c]]
        | part :: parts => (c :: part) :: parts

theorem splitOn_eq_singleton {sep : Char} {chars : List Char} (hnone : sep ∉ chars) :
    splitOn sep chars = [chars] := by
  induction chars with
  | nil => rfl
  | cons c rest ih =>
      simp only [List.mem_cons, not_or] at hnone
      rw [splitOn, if_neg (Ne.symm hnone.1), ih hnone.2]

theorem mem_of_mem_splitOn {sep : Char} {chars part : List Char} (hpart : part ∈ splitOn sep chars)
    {c : Char} (hc : c ∈ part) : c ∈ chars ∧ c ≠ sep := by
  induction chars generalizing part c with
  | nil =>
      simp only [splitOn, List.mem_singleton] at hpart
      simp [hpart] at hc
  | cons head rest ih =>
      rw [splitOn] at hpart
      split at hpart
      next =>
        rcases List.mem_cons.mp hpart with rfl | hrest
        · cases hc
        · exact ⟨List.mem_cons_of_mem _ (ih hrest hc).1, (ih hrest hc).2⟩
      next hne =>
        have hcons : ∀ first others, splitOn sep rest = first :: others →
            part ∈ (head :: first) :: others → c ∈ head :: rest ∧ c ≠ sep := by
          intro first others hsplit hmem
          rw [hsplit] at ih
          rcases List.mem_cons.mp hmem with rfl | hother
          · rcases List.mem_cons.mp hc with rfl | hfirst
            · exact ⟨List.mem_cons_self, hne⟩
            · have hih := ih List.mem_cons_self hfirst
              exact ⟨List.mem_cons_of_mem _ hih.1, hih.2⟩
          · have hih := ih (List.mem_cons_of_mem _ hother) hc
            exact ⟨List.mem_cons_of_mem _ hih.1, hih.2⟩
        cases hsplit : splitOn sep rest with
        | nil =>
            rw [hsplit] at hpart
            rw [List.mem_singleton.mp hpart] at hc
            rw [List.mem_singleton.mp hc]
            exact ⟨List.mem_cons_self, hne⟩
        | cons first others =>
            rw [hsplit] at hpart
            exact hcons first others hsplit hpart

theorem splitOn_ne_nil (sep : Char) (chars : List Char) : splitOn sep chars ≠ [] := by
  cases chars with
  | nil => simp [splitOn]
  | cons c rest =>
      rw [splitOn]
      split
      · simp
      · split <;> simp

/-- Putting the parts together again. -/
theorem intercalate_splitOn (sep : Char) (chars : List Char) :
    [sep].intercalate (splitOn sep chars) = chars := by
  induction chars with
  | nil => rfl
  | cons c rest ih =>
      rw [splitOn]
      split
      next heq =>
        subst heq
        cases hsplit : splitOn c rest with
        | nil => exact absurd hsplit (splitOn_ne_nil c rest)
        | cons part parts =>
            rw [hsplit] at ih
            rw [List.intercalate_cons_cons]
            simp [ih]
      next hne =>
        cases hsplit : splitOn sep rest with
        | nil => exact absurd hsplit (splitOn_ne_nil sep rest)
        | cons part parts =>
            rw [hsplit] at ih
            cases parts with
            | nil =>
                simp only [List.intercalate_singleton] at ih ⊢
                rw [ih]
            | cons second others =>
                rw [List.intercalate_cons_cons] at ih ⊢
                simp [← ih]

theorem splitOn_append {sep : Char} (left right : List Char) :
    splitOn sep (left ++ sep :: right) = splitOn sep left ++ splitOn sep right := by
  induction left with
  | nil => simp [splitOn]
  | cons c rest ih =>
      simp only [List.cons_append, splitOn, ih]
      split
      next => rfl
      next =>
        cases hsplit : splitOn sep rest with
        | nil => exact absurd hsplit (splitOn_ne_nil sep rest)
        | cons part parts => simp

/-- The decimal numeral of a number. -/
def numeral (n : Nat) : String := String.ofList (Nat.toDigits 10 n)

theorem numeral_injective : Function.Injective numeral := by
  intro a b hab
  have hdigits : Nat.toDigits 10 a = Nat.toDigits 10 b := by
    simpa [numeral] using congrArg String.toList hab
  have hvalue := congrArg (fun digits => Nat.ofDigitChars 10 digits 0) hdigits
  simpa using hvalue

/-- A numeral with a numbered suffix: `n` itself for suffix `0`, else `n-k`. -/
def suffixed (n k : Nat) : String :=
  if k = 0 then numeral n else numeral n ++ "-" ++ numeral k

theorem suffixed_injective (n : Nat) : Function.Injective (suffixed n) := by
  intro a b hab
  have hchars := congrArg String.toList hab
  unfold suffixed at hchars
  split at hchars <;> split at hchars
  · omega
  · simp [String.toList_append] at hchars
  · simp [String.toList_append] at hchars
  · simp only [String.toList_append, List.append_assoc, List.append_cancel_left_eq] at hchars
    exact numeral_injective (String.toList_inj.mp (by simpa using hchars))

theorem isDigit_of_mem_numeral {n : Nat} {c : Char} (hc : c ∈ (numeral n).toList) :
    c.isDigit = true := by
  rw [numeral, String.toList_ofList] at hc
  exact Nat.isDigit_of_mem_toDigits (by omega) (by omega) hc

theorem numeral_ne_nil (n : Nat) : (numeral n).toList ≠ [] := by
  rw [numeral, String.toList_ofList]
  exact Nat.toDigits_ne_nil

theorem length_numeral_le {n k : Nat} (hk : 0 < k) (hlt : n < 10 ^ k) :
    (numeral n).toList.length ≤ k := by
  rw [numeral, String.toList_ofList]
  exact (Nat.length_toDigits_le_iff (by omega) hk).mpr hlt

/-- A number below `bound`, with or without a plus sign. -/
def number? (bound : Nat) (chars : List Char) : Option Nat :=
  let digits := match chars with
    | '+' :: rest => rest
    | _ => chars
  if digits ≠ [] ∧ digits.all Char.isDigit = true ∧ Nat.ofDigitChars 10 digits 0 < bound then
    some (Nat.ofDigitChars 10 digits 0)
  else none

theorem number?_numeral {bound n : Nat} (hlt : n < bound) :
    number? bound (numeral n).toList = some n := by
  have hunsigned : ∀ rest, (numeral n).toList ≠ '+' :: rest := by
    intro rest heq
    have hdigit := isDigit_of_mem_numeral (heq ▸ List.mem_cons_self : '+' ∈ (numeral n).toList)
    simp at hdigit
  have hvalue : Nat.ofDigitChars 10 (numeral n).toList 0 = n := by
    rw [numeral, String.toList_ofList]
    exact Nat.ofDigitChars_ten_toDigits
  have hdigits : (numeral n).toList.all Char.isDigit = true :=
    List.all_eq_true.mpr fun c hc => isDigit_of_mem_numeral hc
  unfold number?
  split
  next digits rest heq => exact absurd heq (hunsigned rest)
  next => simp only [hvalue, hdigits, ne_eq, numeral_ne_nil, not_false_eq_true, hlt,
      and_self, ↓reduceIte]

/-- What stands before and after the first `sep`. -/
def splitOnce (sep : Char) : List Char → Option (List Char × List Char)
  | [] => none
  | c :: rest =>
      if c = sep then some ([], rest)
      else (splitOnce sep rest).map fun (before, after) => (c :: before, after)

theorem splitOnce_eq_none {sep : Char} {chars : List Char} (hnone : sep ∉ chars) :
    splitOnce sep chars = none := by
  induction chars with
  | nil => rfl
  | cons c rest ih =>
      simp only [List.mem_cons, not_or] at hnone
      rw [splitOnce, if_neg (Ne.symm hnone.1), ih hnone.2]
      rfl

theorem splitOnce_append {sep : Char} {before : List Char} (hnone : sep ∉ before)
    (after : List Char) : splitOnce sep (before ++ sep :: after) = some (before, after) := by
  induction before with
  | nil => simp [splitOnce]
  | cons c rest ih =>
      simp only [List.mem_cons, not_or] at hnone
      rw [List.cons_append, splitOnce, if_neg (Ne.symm hnone.1), ih hnone.2]
      rfl

/-- Text joined before its first `sep` comes apart in one way. -/
theorem append_sep_inj {sep : Char} {before before' after after' : List Char}
    (hbefore : sep ∉ before) (hbefore' : sep ∉ before')
    (hjoin : before ++ sep :: after = before' ++ sep :: after') :
    before = before' ∧ after = after' := by
  have hsplit := splitOnce_append hbefore after
  rw [hjoin, splitOnce_append hbefore' after'] at hsplit
  obtain ⟨rfl, rfl⟩ := Prod.mk.inj (Option.some.inj hsplit)
  exact ⟨rfl, rfl⟩

/-- The same at its last `sep`. -/
theorem append_sep_inj_right {sep : Char} {before before' after after' : List Char}
    (hafter : sep ∉ after) (hafter' : sep ∉ after')
    (hjoin : before ++ sep :: after = before' ++ sep :: after') :
    before = before' ∧ after = after' := by
  have hreverse := congrArg List.reverse hjoin
  simp only [List.reverse_append, List.reverse_cons, List.append_assoc, List.singleton_append]
    at hreverse
  obtain ⟨hright, hleft⟩ := append_sep_inj (by simpa using hafter) (by simpa using hafter') hreverse
  exact ⟨List.reverse_inj.mp hleft, List.reverse_inj.mp hright⟩

theorem colon_join_toList (left right : String) :
    (left ++ ":" ++ right).toList = left.toList ++ ':' :: right.toList := by
  rw [String.toList_append, String.toList_append, List.append_assoc]
  rfl

theorem colon_join_inj {left left' right right' : String} (hleft : ':' ∉ left.toList)
    (hleft' : ':' ∉ left'.toList) (hjoin : left ++ ":" ++ right = left' ++ ":" ++ right') :
    left = left' ∧ right = right' := by
  have hchars := congrArg String.toList hjoin
  rw [colon_join_toList, colon_join_toList] at hchars
  obtain ⟨hbefore, hafter⟩ := append_sep_inj hleft hleft' hchars
  exact ⟨String.toList_inj.mp hbefore, String.toList_inj.mp hafter⟩

theorem colon_join_inj_right {left left' right right' : String} (hright : ':' ∉ right.toList)
    (hright' : ':' ∉ right'.toList) (hjoin : left ++ ":" ++ right = left' ++ ":" ++ right') :
    left = left' ∧ right = right' := by
  have hchars := congrArg String.toList hjoin
  rw [colon_join_toList, colon_join_toList] at hchars
  obtain ⟨hbefore, hafter⟩ := append_sep_inj_right hright hright' hchars
  exact ⟨String.toList_inj.mp hbefore, String.toList_inj.mp hafter⟩

end Text
