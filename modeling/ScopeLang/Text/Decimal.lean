-- SUMMARY: Signed 64-bit integers in decimal notation.

/-! # Decimal integers

Integers of the language are signed 64-bit words. `Decimal.fit?` is the only
way into them: it keeps an exact integer that a word can hold and refuses every
other. A decimal is at most one sign and then at least one ASCII digit; leading
zeros are allowed, and only the value decides whether it fits.
-/

namespace ScopeLang.Decimal

/-- The word with the given value, if there is one. -/
def fit? (n : Int) : Option Int64 :=
  if Int64.minValue.toInt ≤ n ∧ n ≤ Int64.maxValue.toInt then some (Int64.ofInt n) else none

/-- The value of a non-empty run of ASCII digits. -/
def digits? (cs : List Char) : Option Nat :=
  if !cs.isEmpty && cs.all Char.isDigit then some (Nat.ofDigitChars 10 cs 0) else none

/-- The exact value of a decimal. -/
def value? : List Char → Option Int
  | '-' :: cs => (digits? cs).map fun n => -(n : Int)
  | '+' :: cs => (digits? cs).map Int.ofNat
  | cs => (digits? cs).map Int.ofNat

/-- The word that a decimal denotes. -/
def read? (s : String) : Option Int64 :=
  (value? s.toList).bind fit?

/-- A word in decimal notation, with a sign only below zero. -/
def render (n : Int64) : String :=
  match n.toInt with
  | .ofNat k => k.repr
  | .negSucc k => "-" ++ (k + 1).repr

/-! ## Words and exact integers -/

/-- A word of the given value exists exactly for the values in range. -/
theorem fit?_eq_some_iff {n : Int} {w : Int64} : fit? n = some w ↔ w.toInt = n := by
  constructor
  · intro h
    simp only [fit?] at h
    split at h
    · rename_i hn
      cases h
      exact Int64.toInt_ofInt_of_le hn.1 (Int.lt_add_one_of_le hn.2)
    · cases h
  · rintro rfl
    rw [fit?, if_pos ⟨Int64.minValue_le_toInt w, Int64.toInt_le w⟩, Int64.ofInt_toInt]

@[simp] theorem fit?_toInt (w : Int64) : fit? w.toInt = some w :=
  fit?_eq_some_iff.2 rfl

end ScopeLang.Decimal
