-- SUMMARY: Texts in the form that shows every character, for debugging.
import ScopeLang.Text.GraphemeExtend
import ScopeLang.Text.Ignorable
import ScopeLang.Text.Printable

/-! # Inspected texts

Inspection writes a text between double quotes so that each of its characters
can be told from the others on any screen. Six characters have a letter after a
backslash. A character that would not show, or would only change the look of
the one before it, is written as its code point in hexadecimal. Every other
character stands for itself.

This is more than the language reads back: its string literals are the concern
of `Text.Quoted`, and know four of the letters and no code points.
-/

namespace ScopeLang.Text

/-- The letter that stands for a character in an inspected text, if it has one. -/
def inspectLetter? : Char → Option Char
  | '\x00' => some '0'
  | '\t' => some 't'
  | '\n' => some 'n'
  | '\r' => some 'r'
  | '\"' => some '\"'
  | '\\' => some '\\'
  | _ => none

/-- A code point in lower-case hexadecimal, without leading zeros. -/
def codePoint (c : Char) : List Char :=
  "\\u\x7b".toList ++ Nat.toDigits 16 c.toNat ++ ['\x7d']

/-- Whether a character shows by itself, in a place of its own. -/
def isVisible (c : Char) : Bool :=
  isPrintable c && !isIgnorable c && !isCombining c

/-- A character as it is written in an inspected text. -/
def inspectChar (c : Char) : List Char :=
  match inspectLetter? c with
  | some letter => ['\\', letter]
  | none => if isVisible c then [c] else codePoint c

/-- A text in the form that shows every character. -/
def inspect (s : String) : String :=
  "\"" ++ String.ofList (s.toList.flatMap inspectChar) ++ "\""

/-! ## Small facts -/

/-- An ASCII character that is neither a control, a quote nor a backslash stands for itself. -/
theorem inspectChar_of_ascii {c : Char} (low : 0x20 ≤ c.toNat) (high : c.toNat < 0x7F)
    (quote : c ≠ '\"') (backslash : c ≠ '\\') : inspectChar c = [c] := by
  have ascii : c.toNat < 0x80 := by omega
  have letter : inspectLetter? c = none := by
    unfold inspectLetter?
    split <;> simp_all
  have visible : isVisible c = true := by
    simp [isVisible, isPrintable_of_ascii ascii, isIgnorable_of_ascii ascii,
      isCombining_of_ascii ascii, low, high]
  simp [inspectChar, letter, visible]

-- Both have `Grapheme_Extend`, but the sound mark is not combining.
example : inspectChar '\u0301' = "\\u\x7b301\x7d".toList := by
  decide +kernel

example : inspectChar '\uff9e' = ['\uff9e'] := by
  decide +kernel

end ScopeLang.Text
