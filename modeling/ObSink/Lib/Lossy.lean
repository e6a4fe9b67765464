import Mathlib.Tactic.Common

/-! # Reading bytes as UTF-8, whatever they are

Each maximal start of an ill-formed sequence is read as one replacement
character.
-/

namespace Lossy

/-- U+FFFD -/
def replacement : Char := '\uFFFD'

/-- The character that the bytes start with. -/
def decodeChar (bytes : List UInt8) : Option Char := ByteArray.utf8DecodeChar? ⟨bytes.toArray⟩ 0

def isTail (byte : UInt8) : Bool := 0x80 ≤ byte && byte ≤ 0xBF

/-- The two bytes start some character of three or four bytes. -/
def startsLong (first second : UInt8) : Bool :=
  if first = 0xE0 then 0xA0 ≤ second && second ≤ 0xBF
  else if first = 0xED then 0x80 ≤ second && second ≤ 0x9F
  else if first = 0xF0 then 0x90 ≤ second && second ≤ 0xBF
  else if first = 0xF4 then 0x80 ≤ second && second ≤ 0x8F
  else 0xE1 ≤ first && first ≤ 0xF3 && isTail second

/-- How much of bytes that start no character is replaced at once. -/
def illFormed : List UInt8 → Nat
  | first :: second :: third :: _ =>
      if startsLong first second then if 0xF0 ≤ first && isTail third then 3 else 2 else 1
  | [first, second] => if startsLong first second then 2 else 1
  | _ => 1

/-- The characters after `skip` more bytes of the last one. -/
def charsFrom : (skip : Nat) → List UInt8 → List Char
  | _, [] => []
  | skip + 1, _ :: rest => charsFrom skip rest
  | 0, first :: rest =>
      match decodeChar (first :: rest) with
      | some c => c :: charsFrom (c.utf8Size - 1) rest
      | none => replacement :: charsFrom (illFormed (first :: rest) - 1) rest

def fromUtf8 (bytes : List UInt8) : String := String.ofList (charsFrom 0 bytes)

theorem charsFrom_append (skipped rest : List UInt8) :
    charsFrom skipped.length (skipped ++ rest) = charsFrom 0 rest := by
  induction skipped with
  | nil => rfl
  | cons byte skipped ih => exact ih

theorem charsFrom_encode (c : Char) (rest : List UInt8) :
    charsFrom 0 (String.utf8EncodeChar c ++ rest) = c :: charsFrom 0 rest := by
  have hdecode : decodeChar (String.utf8EncodeChar c ++ rest) = some c := by
    have hjoin : (⟨(String.utf8EncodeChar c ++ rest).toArray⟩ : ByteArray) =
        (String.utf8EncodeChar c).toByteArray ++ ⟨rest.toArray⟩ := by
      apply ByteArray.ext
      simp
    rw [decodeChar, hjoin, ByteArray.utf8DecodeChar?_utf8EncodeChar_append]
  have hlength := String.length_utf8EncodeChar c
  cases hbytes : String.utf8EncodeChar c with
  | nil =>
      have hpos := c.utf8Size_pos
      rw [hbytes] at hlength
      simp at hlength
      omega
  | cons byte tail =>
      rw [hbytes, List.length_cons] at hlength
      rw [hbytes] at hdecode
      have hskip : c.utf8Size - 1 = tail.length := by omega
      rw [List.cons_append, charsFrom, ← List.cons_append, hdecode]
      simp only
      rw [hskip, charsFrom_append]

/-- A text is encoded character by character. -/
theorem toUTF8_toList (text : String) :
    text.toUTF8.data.toList = text.toList.flatMap String.utf8EncodeChar := by
  rw [String.toUTF8_eq_toByteArray, ← String.utf8Encode_toList, List.utf8Encode]
  simp

/-- Well-formed bytes are read as what they spell. -/
theorem fromUtf8_toUTF8 (text : String) : fromUtf8 text.toUTF8.data.toList = text := by
  have hchars : ∀ chars : List Char, charsFrom 0 (chars.flatMap String.utf8EncodeChar) = chars := by
    intro chars
    induction chars with
    | nil => rfl
    | cons c rest ih => rw [List.flatMap_cons, charsFrom_encode, ih]
  rw [fromUtf8, toUTF8_toList, hchars, String.ofList_toList]

end Lossy
