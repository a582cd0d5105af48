-- SUMMARY: The characters that leave no trace on a screen, such as joiners, variation selectors and fillers.
import ScopeLang.Text.Runs

/-! # Ignorable characters

A character with the Unicode property `Default_Ignorable_Code_Point` is not
drawn where it has no effect of its own. The property holds of 4174 code points
in Unicode 17.0. Most of them are unprintable by their category as well; the
Hangul fillers are letters, and only this property tells that they are blank.
-/

namespace ScopeLang.Text

/-- The runs of code points with `Default_Ignorable_Code_Point`. -/
def ignorableRuns : List (Nat × Nat) :=
  [(0xAD, 0xAD), (0x34F, 0x34F), (0x61C, 0x61C), (0x115F, 0x1160), (0x17B4, 0x17B5),
   (0x180B, 0x180F), (0x200B, 0x200F), (0x202A, 0x202E), (0x2060, 0x206F), (0x3164, 0x3164),
   (0xFE00, 0xFE0F), (0xFEFF, 0xFEFF), (0xFFA0, 0xFFA0), (0xFFF0, 0xFFF8), (0x1BCA0, 0x1BCA3),
   (0x1D173, 0x1D17A), (0xE0000, 0xE0FFF)]

/-- Whether a character leaves no trace on a screen. -/
def isIgnorable (c : Char) : Bool :=
  Runs.mem ignorableRuns c.toNat

/-- No ASCII character is ignorable. -/
theorem isIgnorable_of_ascii {c : Char} (h : c.toNat < 0x80) : isIgnorable c = false :=
  Runs.mem_eq_false_of_lt (by decide) h

end ScopeLang.Text
