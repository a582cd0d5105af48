-- SUMMARY: The characters that separate words, and the words of a text.
import ScopeLang.Text.Runs

/-! # Blanks and words

A blank is a character with the Unicode property `White_Space`; the property
holds of 25 characters. The words of a text are its maximal runs of other
characters.
-/

namespace ScopeLang.Text

/-- The first and last code point of each run of blanks, in order. -/
def blankRuns : List (Nat × Nat) :=
  [(0x09, 0x0D), (0x20, 0x20), (0x85, 0x85), (0xA0, 0xA0), (0x1680, 0x1680),
   (0x2000, 0x200A), (0x2028, 0x2029), (0x202F, 0x202F), (0x205F, 0x205F), (0x3000, 0x3000)]

/-- Whether a character separates words. -/
def isBlank (c : Char) : Bool :=
  Runs.mem blankRuns c.toNat

/-- The maximal blank-free runs of a character sequence. -/
def wordsOf (cs : List Char) : List (List Char) :=
  (cs.splitOnP isBlank).filter fun w => !w.isEmpty

/-- The words of a text, in order. -/
def words (s : String) : List String :=
  (wordsOf s.toList).map String.ofList

/-! ## Small facts -/

@[simp] theorem wordsOf_nil : wordsOf [] = [] := by
  simp [wordsOf]

/-- Words on the two sides of a blank do not touch. -/
theorem wordsOf_append_blank (xs ys : List Char) {b : Char} (h : isBlank b = true) :
    wordsOf (xs ++ b :: ys) = wordsOf xs ++ wordsOf ys := by
  simp [wordsOf, List.splitOnP_append_cons xs ys h]

end ScopeLang.Text
