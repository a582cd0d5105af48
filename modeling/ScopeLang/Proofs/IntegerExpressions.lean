-- SUMMARY: Expressions of integer literals and operators are computed exactly or refused.
import Mathlib.Algebra.Ring.Int.Defs
import ScopeLang.Proofs.NameSafety
import ScopeLang.Proofs.Scanning

/-! # Integer expressions

An expression that is built from integer literals with the binary operators has
an exact value, as an unbounded integer. Evaluation works with words, from left
to right, and skips an operand that does not matter. Either it comes to the exact
value, or it stops at the first subexpression on its way that a word cannot hold
or that divides by zero. It leaves the machine as it is.

Which subexpressions are on the way, and in which order they are finished, is
said on exact values too, so nothing here refers to words but the range of an
integer that fits one.
-/

namespace ScopeLang

/-! ## Operators on integers -/

/-- The integer fits a signed word of 64 bits. -/
def FitsWord (n : Int) : Prop :=
  -2 ^ 63 ≤ n ∧ n ≤ 2 ^ 63 - 1

instance (n : Int) : Decidable (FitsWord n) :=
  inferInstanceAs (Decidable (_ ∧ _))

namespace Operator

/-- The exact result of an operator. A quotient is cut off toward zero, and truth is one or
zero. -/
def onIntegers : Operator → Int → Int → Int
  | .arithmetic .add, l, r => l + r
  | .arithmetic .sub, l, r => l - r
  | .arithmetic .mul, l, r => l * r
  | .arithmetic .div, l, r => l.tdiv r
  | .comparison .greater, l, r => if l > r then 1 else 0
  | .comparison .less, l, r => if l < r then 1 else 0
  | .comparison .greaterEqual, l, r => if l ≥ r then 1 else 0
  | .comparison .lessEqual, l, r => if l ≤ r then 1 else 0
  | .comparison .equal, l, r => if l = r then 1 else 0
  | .comparison .notEqual, l, r => if l ≠ r then 1 else 0
  | .connective .and, l, r => if l ≠ 0 ∧ r ≠ 0 then 1 else 0
  | .connective .or, l, r => if l ≠ 0 ∨ r ≠ 0 then 1 else 0

/-- Whether the right operand is skipped. -/
def skips : Operator → Int → Bool
  | .connective .and, l => l = 0
  | .connective .or, l => l ≠ 0
  | _, _ => false

/-- Why an operator has no result in a word. -/
def objection? (op : Operator) (l r : Int) : Option Code :=
  if op = .arithmetic .div ∧ r = 0 then some .divisionByZero
  else if FitsWord (op.onIntegers l r) then none
  else some .outOfRange

end Operator

/-! ## Expressions -/

/-- An expression of integer literals and operators. The text of an operator's node may be
anything. -/
inductive IntegerExpression
  | literal (digits : String) (spelled : Text.isDigits digits = true) (place : Span)
  | operation (op : Operator) (text : String) (place : Span) (left right : IntegerExpression)

namespace IntegerExpression

/-- The tree of an expression. -/
def node : IntegerExpression → Node
  | .literal digits _ place => .leaf .number digits place
  | .operation op text place left right => ⟨.binary op, text, place, [left.node, right.node]⟩

def place : IntegerExpression → Span
  | .literal _ _ place => place
  | .operation _ _ place _ _ => place

/-- How deep operations nest in an expression. -/
def height : IntegerExpression → Nat
  | .literal .. => 0
  | .operation _ _ _ left right => max left.height right.height + 1

/-- The exact value. -/
def value : IntegerExpression → Int
  | .literal digits _ _ => Nat.ofDigitChars 10 digits.toList 0
  | .operation op _ _ left right => op.onIntegers left.value right.value

/-- The subexpressions that are evaluated, in the order in which they are finished. -/
def evaluated : IntegerExpression → List IntegerExpression
  | .literal digits spelled place => [.literal digits spelled place]
  | .operation op text place left right =>
    left.evaluated ++ (if op.skips left.value then [] else right.evaluated)
      ++ [.operation op text place left right]

/-- Why an expression has no value in a word, although its operands do. -/
def objection? : IntegerExpression → Option Code
  | .literal digits _ _ =>
    if FitsWord (Nat.ofDigitChars 10 digits.toList 0) then none else some .outOfRange
  | .operation op _ _ left right => op.objection? left.value right.value

/-- The first objection on the way of evaluation, and its place. -/
def refusal? (e : IntegerExpression) : Option (Code × Span) :=
  e.evaluated.findSome? fun part => part.objection?.map (·, part.place)

/-- Evaluation ends with the exact value in a word, or with a fault for the first objection; and
the machine is as it was. -/
inductive Ends {α : Type} (ofWord : Int64 → α) (e : IntegerExpression) (m : Machine) :
    EStateM.Result Stop Machine α → Prop
  | computed (w : Int64) (accepted : e.refusal? = none) (exact : w.toInt = e.value) :
      Ends ofWord e m (.ok (ofWord w) m)
  | refused (f : Fault) (first : e.refusal? = some (f.code, f.span)) :
      Ends ofWord e m (.error (.fault f) m)

end IntegerExpression

/-! ## Words -/

theorem exists_fit?_of_fitsWord {n : Int} (h : FitsWord n) :
    ∃ w : Int64, w.toInt = n ∧ Decimal.fit? n = some w := by
  have hfit : Decimal.fit? n = some (Int64.ofInt n) := by
    unfold Decimal.fit?
    exact if_pos h
  exact ⟨Int64.ofInt n, Decimal.fit?_eq_some_iff.1 hfit, hfit⟩

theorem fit?_of_not_fitsWord {n : Int} (h : ¬ FitsWord n) : Decimal.fit? n = none := by
  unfold Decimal.fit?
  exact if_neg h

/-- Digits are read as their value, if it fits. -/
theorem read?_of_isDigits {digits : String} (h : Text.isDigits digits = true) :
    Decimal.read? digits = Decimal.fit? (Nat.ofDigitChars 10 digits.toList 0) := by
  unfold Text.isDigits at h
  have hvalue : Decimal.digits? digits.toList =
      some (Nat.ofDigitChars 10 digits.toList 0) := by
    unfold Decimal.digits?
    exact if_pos h
  unfold Decimal.read? Decimal.value?
  split
  next cs hcs => simp [hcs, Char.isDigit] at h
  next cs hcs => simp [hcs, Char.isDigit] at h
  next =>
    rw [hvalue]
    rfl

/-- A word is zero as its value is. -/
theorem bne_zero_eq_decide (w : Int64) : (w != 0) = decide (w.toInt ≠ 0) := by
  have hiff : w = 0 ↔ w.toInt = 0 := by
    rw [← Int64.toInt_inj]
    rfl
  simp [bne, beq_eq_decide, hiff]

namespace Operator

variable {l r : Int64}

/-- Truth fits a word. -/
theorem objection?_of_truth {op : Operator} {m n : Int} {p : Prop} [Decidable p]
    (hop : op ≠ .arithmetic .div) (h : op.onIntegers m n = if p then 1 else 0) :
    op.objection? m n = none := by
  have hfits : FitsWord (op.onIntegers m n) := by
    rw [h]
    split <;> decide
  unfold objection?
  rw [if_neg fun hdiv => hop hdiv.1, if_pos hfits]

theorem toInt_ofBool (p : Prop) [Decidable p] :
    (if decide p then 1 else 0 : Int64).toInt = if p then 1 else 0 := by
  by_cases h : p <;> simp [h]

theorem onIntegers_comparison (op : Comparison) (m n : Int) :
    (comparison op).onIntegers m n = if op.holds m n then 1 else 0 := by
  cases op <;> simp [onIntegers, Comparison.holds]

theorem onIntegers_arithmetic (op : Arithmetic) (m n : Int) :
    (arithmetic op).onIntegers m n = op.exact m n := by
  cases op <;> rfl

/-- Arithmetic on words is exact, or there is an objection to it. -/
theorem compute_cases (op : Arithmetic) (l r : Int64) :
    (∃ w, op.compute l r = .ok w ∧ w.toInt = (arithmetic op).onIntegers l.toInt r.toInt ∧
      (arithmetic op).objection? l.toInt r.toInt = none) ∨
    ∃ cause, op.compute l r = .error cause ∧
      (arithmetic op).objection? l.toInt r.toInt = some cause.code := by
  have hzero : r = 0 ↔ r.toInt = 0 := by
    rw [← Int64.toInt_inj]
    rfl
  unfold Arithmetic.compute objection?
  rw [onIntegers_arithmetic]
  by_cases hdiv : op = .div ∧ r = 0
  · right
    refine ⟨.divisionByZero, if_pos hdiv, if_pos ?_⟩
    exact ⟨congrArg arithmetic hdiv.1, hzero.1 hdiv.2⟩
  · have hdiv' : ¬ (arithmetic op = .arithmetic .div ∧ r.toInt = 0) := by
      rintro ⟨hop, hr⟩
      exact hdiv ⟨arithmetic.inj hop, hzero.2 hr⟩
    rw [if_neg hdiv, if_neg hdiv']
    by_cases hfits : FitsWord (op.exact l.toInt r.toInt)
    · left
      obtain ⟨w, hexact, hfit⟩ := exists_fit?_of_fitsWord hfits
      exact ⟨w, by rw [hfit], hexact, if_pos hfits⟩
    · right
      exact ⟨.overflow l op r, by rw [fit?_of_not_fitsWord hfits], if_neg hfits⟩

end Operator

/-! ## Evaluation -/

namespace IntegerExpression

variable {e left right : IntegerExpression} {op : Operator} {text : String} {place : Span}
  {run : Node → ScopeId → Exec Value} {env : ScopeId} {m : Machine}

theorem refusal?_literal {digits : String} {spelled : Text.isDigits digits = true} :
    (literal digits spelled place).refusal? =
      (literal digits spelled place).objection?.map (·, place) := by
  unfold refusal? evaluated
  simp [IntegerExpression.place]

/-- The operands come first, and the right one only if it is not skipped. -/
theorem refusal?_operation (op : Operator) (text : String) (place : Span)
    (left right : IntegerExpression) :
    (operation op text place left right).refusal? =
      (left.refusal?.or (if op.skips left.value then none else right.refusal?)).or
        ((op.objection? left.value right.value).map (·, place)) := by
  conv_lhs => unfold refusal? evaluated
  rw [List.findSome?_append, List.findSome?_append]
  congr 1
  · congr 1
    split <;> rfl
  · simp [objection?, IntegerExpression.place]

/-- The operand of an operator. -/
theorem Ends.operand (h : Ends .int e m (run e.node env m)) :
    Ends id e m (Exec.operand run e.node env m) := by
  generalize hrun : run e.node env m = x at h
  cases h with
  | computed w accepted exact =>
      have hoperand : Exec.operand run e.node env m = .ok w m := Exec.bind_of_ok hrun
      rw [hoperand]
      exact .computed w accepted exact
  | refused f first =>
      have hoperand : Exec.operand run e.node env m = .error (.fault f) m :=
        Exec.bind_of_error hrun
      rw [hoperand]
      exact .refused f first

/-- An operator whose right operand is evaluated after the left one was computed. -/
theorem Ends.rightOperand {k : Int64 → Exec Value} (hleft : left.refusal? = none)
    (hskips : op.skips left.value = false) (hright : Ends .int right m (run right.node env m))
    (hk : ∀ r : Int64, r.toInt = right.value →
      (operation op text place left right).refusal? =
        (op.objection? left.value right.value).map (·, place) →
      Ends .int (operation op text place left right) m (k r m)) :
    Ends .int (operation op text place left right) m
      ((Exec.operand run right.node env >>= k) m) := by
  have hrefusal := refusal?_operation op text place left right
  rw [hleft, hskips] at hrefusal
  have hoperand := hright.operand
  generalize hrun : Exec.operand run right.node env m = x at hoperand
  cases hoperand with
  | computed r accepted exact =>
      rw [Exec.bind_of_ok hrun]
      apply hk r exact
      rw [hrefusal, accepted]
      rfl
  | refused f first =>
      rw [Exec.bind_of_error hrun]
      apply Ends.refused f
      rw [hrefusal, first]
      rfl

/-- The truth that an operator comes to. -/
theorem Ends.truth {p : Prop} [Decidable p]
    (hvalue : op.onIntegers left.value right.value = if p then 1 else 0)
    (hrefusal : (operation op text place left right).refusal? =
      (op.objection? left.value right.value).map (·, place)) (hop : op ≠ .arithmetic .div) :
    Ends .int (operation op text place left right) m (.ok (Value.ofBool (decide p)) m) := by
  refine .computed (if decide p then 1 else 0) ?_ ?_
  · rw [hrefusal, Operator.objection?_of_truth hop hvalue]
    rfl
  · rw [Operator.toInt_ofBool]
    exact hvalue.symm

theorem Ends.arithmetic {op : Arithmetic} (hleft : left.refusal? = none) {l : Int64}
    (hl : l.toInt = left.value) (hright : Ends .int right m (run right.node env m)) :
    Ends .int (operation (.arithmetic op) text place left right) m
      ((do
        let r ← Exec.operand run right.node env
        match op.compute l r with
        | .ok v => return .int v
        | .error cause => Exec.fail cause place : Exec Value) m) := by
  refine .rightOperand hleft rfl hright fun r hr hrefusal => ?_
  rw [← hl, ← hr] at hrefusal
  obtain ⟨w, hcompute, hexact, hnone⟩ | ⟨cause, hcompute, hsome⟩ := Operator.compute_cases op l r
  · rw [hcompute]
    refine .computed w ?_ ?_
    · rw [hrefusal, hnone]
      rfl
    · rw [hexact, hl, hr]
      rfl
  · rw [hcompute]
    refine .refused ⟨cause, place⟩ ?_
    rw [hrefusal, hsome]
    rfl

theorem Ends.comparison {op : Comparison} (hleft : left.refusal? = none) {l : Int64}
    (hl : l.toInt = left.value) (hright : Ends .int right m (run right.node env m)) :
    Ends .int (operation (.comparison op) text place left right) m
      ((do
        let r ← Exec.operand run right.node env
        return .ofBool (op.holds l.toInt r.toInt) : Exec Value) m) := by
  refine .rightOperand hleft rfl hright fun r hr hrefusal => ?_
  have htruth := Operator.onIntegers_comparison op left.value right.value
  have hends := Ends.truth (m := m) htruth hrefusal nofun
  rw [Bool.decide_eq_true, ← hl, ← hr] at hends
  exact hends

/-- A connective that skips its right operand has the truth of the left one. -/
theorem Ends.connective {op : Connective} (hleft : left.refusal? = none) {l : Int64}
    (hl : l.toInt = left.value) (hright : Ends .int right m (run right.node env m)) :
    Ends .int (operation (.connective op) text place left right) m
      ((if op.isDecidedBy (l != 0) then
          return .ofBool (l != 0)
        else do
          let r ← Exec.operand run right.node env
          return .ofBool (r != 0) : Exec Value) m) := by
  have hdecided : op.isDecidedBy (l != 0) = (Operator.connective op).skips left.value := by
    rw [bne_zero_eq_decide, hl]
    cases op <;> simp [Connective.isDecidedBy, Operator.skips]
  rw [hdecided]
  split
  next hskips =>
    have hvalue : (Operator.connective op).onIntegers left.value right.value =
        if left.value ≠ 0 then 1 else 0 := by
      cases op <;> simp_all [Operator.skips, Operator.onIntegers]
    have hrefusal := refusal?_operation (.connective op) text place left right
    rw [hleft, hskips] at hrefusal
    have hends := Ends.truth (m := m) hvalue hrefusal nofun
    rw [← hl, ← bne_zero_eq_decide] at hends
    exact hends
  next hskips =>
    rw [Bool.not_eq_true] at hskips
    refine .rightOperand hleft hskips hright fun r hr hrefusal => ?_
    have hvalue : (Operator.connective op).onIntegers left.value right.value =
        if right.value ≠ 0 then 1 else 0 := by
      cases op <;> simp_all [Operator.skips, Operator.onIntegers]
    have hends := Ends.truth (m := m) hvalue hrefusal nofun
    rw [← hr, ← bne_zero_eq_decide] at hends
    exact hends

/-- An operation ends as it should if its operands do. -/
theorem Ends.operation (hleft : Ends .int left m (run left.node env m))
    (hright : Ends .int right m (run right.node env m)) :
    Ends .int (operation op text place left right) m
      (Exec.binary run op (operation op text place left right).node env m) := by
  change Ends Value.int _ m ((Exec.operand run left.node env >>= fun l => _) m)
  have hoperand := hleft.operand
  generalize hrun : Exec.operand run left.node env m = x at hoperand
  cases hoperand with
  | refused f first =>
      rw [Exec.bind_of_error hrun]
      apply Ends.refused f
      rw [refusal?_operation, first]
      rfl
  | computed l accepted exact =>
      rw [Exec.bind_of_ok hrun]
      cases op with
      | arithmetic op => exact .arithmetic accepted exact hright
      | comparison op => exact .comparison accepted exact hright
      | connective op => exact .connective accepted exact hright

theorem Ends.literal {digits : String} {spelled : Text.isDigits digits = true} :
    Ends .int (literal digits spelled place) m
      (Exec.number (literal digits spelled place).node m) := by
  have htext : (IntegerExpression.literal digits spelled place).node.text = digits := rfl
  unfold Exec.number
  rw [htext, read?_of_isDigits spelled]
  by_cases hfits : FitsWord (Nat.ofDigitChars 10 digits.toList 0)
  · obtain ⟨w, hexact, hfit⟩ := exists_fit?_of_fitsWord hfits
    rw [hfit]
    refine .computed w ?_ hexact
    rw [refusal?_literal, objection?, if_pos hfits]
    rfl
  · rw [fit?_of_not_fitsWord hfits]
    refine .refused ⟨.literalOutOfRange digits, place⟩ ?_
    rw [refusal?_literal, objection?, if_neg hfits]
    rfl

/-- With fuel for its height, an integer expression evaluates to its exact value, or stops at
the first of the subexpressions on the way that a literal or a result too large for a word or
a division by zero rules out. The machine does not change. -/
theorem computed_exactly_or_refused (e : IntegerExpression) {fuel : Nat} (hfuel : e.height < fuel)
    (env : ScopeId) (m : Machine) : Ends .int e m (eval fuel e.node env m) := by
  induction e generalizing fuel with
  | literal digits spelled place =>
      cases fuel with
      | zero => exact absurd hfuel (Nat.not_lt_zero _)
      | succ fuel => exact .literal
  | operation op text place left right ihLeft ihRight =>
      cases fuel with
      | zero => exact absurd hfuel (Nat.not_lt_zero _)
      | succ fuel =>
          unfold height at hfuel
          exact .operation (ihLeft (by omega)) (ihRight (by omega))

/-- In `(0 && 1 / 0) + (0 - 9223372036854775807 - 1) / (0 - 1)` the division by zero is skipped,
and the quotient of the least word is one too large. -/
theorem computed_exactly_or_refused_least :
    let number := fun (digits : String) (spelled : Text.isDigits digits = true) (column : Nat) =>
      literal digits spelled ⟨1, column⟩
    let binary := fun (op : Operator) (column : Nat) => operation op "" ⟨1, column⟩
    let zero := number "0" rfl
    let one := number "1" rfl
    let skipped := binary (.connective .and) 4 (zero 2)
      (binary (.arithmetic .div) 9 (one 7) (zero 11))
    let least := binary (.arithmetic .sub) 41
      (binary (.arithmetic .sub) 19 (zero 17) (number "9223372036854775807" rfl 21)) (one 43)
    let quotient := binary (.arithmetic .div) 46 least
      (binary (.arithmetic .sub) 51 (zero 49) (one 53))
    let e := binary (.arithmetic .add) 14 skipped quotient
    e.height < 5 ∧ e.refusal? = some (.outOfRange, ⟨1, 46⟩) ∧
      Ends .int e (.initial {}) (eval 5 e.node Store.globalId (.initial {})) := by
  intro number binary zero one skipped least quotient e
  have hheight : e.height < 5 := by decide
  exact ⟨hheight, by decide +kernel, computed_exactly_or_refused e hheight _ _⟩

end IntegerExpression

end ScopeLang
