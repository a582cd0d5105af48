-- SUMMARY: Sets of code points as ascending runs.

/-! # Runs of code points

A set of characters is given as the runs of their code points: the first and
the last of each, in ascending order and with a gap between any two.
-/

namespace ScopeLang.Text.Runs

/-- Whether a code point lies in one of the runs. -/
def mem (runs : List (Nat × Nat)) (n : Nat) : Bool :=
  runs.any fun (low, high) => low ≤ n && n ≤ high

/-! ## Small facts -/

@[simp] theorem mem_nil (n : Nat) : mem [] n = false := rfl

@[simp] theorem mem_append (xs ys : List (Nat × Nat)) (n : Nat) :
    mem (xs ++ ys) n = (mem xs n || mem ys n) := by
  simp [mem, List.any_append]

/-- A code point before every run lies in none. -/
theorem mem_eq_false_of_lt {runs : List (Nat × Nat)} {bound n : Nat}
    (after : runs.all (fun run => bound ≤ run.1) = true) (before : n < bound) :
    mem runs n = false := by
  simp only [mem, List.any_eq_false, List.all_eq_true, decide_eq_true_eq] at after ⊢
  intro run inRuns
  have := after run inRuns
  simp
  omega

end ScopeLang.Text.Runs
