-- SUMMARY: What a console answers to one request for a word after another, as its input tells it.
import ScopeLang.Proofs.InputDemand

/-! # Answers of an input

An input is any sequence of bytes. It is cut into lines, and every line has
answers to give: one for each of its words if it is a text, and one failure if it
is not. After the answers of all lines the input has ended, and that is the answer
ever after.

A console takes its lines one at a time and keeps the words of the line it took
last. The answers it has left are those of these words and of the lines that it
has not taken. A read gives the first of them and leaves the others; nothing else
that is done with a console touches them, except that another input replaces them
all. So the answers since an input was set can be told from the input and from the
number of reads alone.
-/

namespace ScopeLang

/-! ## Lines -/

/-- The lines of a byte sequence: each one ends in the only line feed it has. What is left behind
the last line feed, if anything, is a line too. -/
inductive Lines : List UInt8 → List (List UInt8) → Prop
  | nil : Lines [] []
  | last {line : List UInt8} (inside : Span.lineFeed ∉ line) (nonempty : line ≠ []) :
      Lines line [line]
  | cons {line rest : List UInt8} {lines : List (List UInt8)} (inside : Span.lineFeed ∉ line)
      (others : Lines rest lines) :
      Lines (line ++ Span.lineFeed :: rest) ((line ++ [Span.lineFeed]) :: lines)

theorem lines_linesOf (bs : List UInt8) : Lines bs (linesOf bs) := by
  induction bs with
  | nil => exact .nil
  | cons b bs ih =>
      unfold linesOf
      split
      next hfeed =>
        subst hfeed
        exact .cons List.not_mem_nil ih
      next hfeed =>
        have hinside : ∀ {line}, Span.lineFeed ∉ line → Span.lineFeed ∉ b :: line := by
          intro line hline
          exact List.not_mem_cons_of_ne_of_not_mem (Ne.symm hfeed) hline
        -- The byte goes to the front of the first line, and is a line of its own if there is none.
        split
        next hlines =>
          rw [hlines] at ih
          cases ih
          exact .last (hinside List.not_mem_nil) (List.cons_ne_nil b [])
        next line lines hlines =>
          rw [hlines] at ih
          cases ih with
          | last inside nonempty => exact .last (hinside inside) (List.cons_ne_nil b _)
          | cons inside others => exact .cons (hinside inside) others

namespace Console

/-! ## Answers -/

/-- What a request for a word is answered: a word, the end of the input, or a failure. -/
abbrev Answer := Except ConsoleFailure (Option String)

def Answer.word (w : String) : Answer :=
  .ok (some w)

def Answer.ended : Answer :=
  .ok none

/-- The answers that a line has to give. -/
def answersOfLine (line : List UInt8) : List Answer :=
  match Text.ofBytes? line with
  | some text => (Text.words text).map .word
  | none => [.error .notText]

/-- The answers that a console has left to give before its input ends. -/
def left (c : Console) : List Answer :=
  c.pending.map .word ++ c.lines.flatMap answersOfLine

/-- The first so many answers, when the input ends behind the ones given. -/
def firstAnswers (answers : List Answer) (count : Nat) : List Answer :=
  answers.take count ++ .replicate (count - answers.length) .ended

@[simp] theorem firstAnswers_zero (answers : List Answer) : firstAnswers answers 0 = [] := by
  simp [firstAnswers]

theorem firstAnswers_succ (answers : List Answer) (count : Nat) :
    firstAnswers answers (count + 1) =
      firstAnswers answers count ++ [(answers.drop count).headD .ended] := by
  unfold firstAnswers
  by_cases hleft : count < answers.length
  · have hnone : count - answers.length = 0 ∧ count + 1 - answers.length = 0 := by omega
    rw [hnone.1, hnone.2, List.take_add_one, List.getElem?_eq_getElem hleft,
      List.drop_eq_getElem_cons hleft, List.replicate_zero, List.append_nil, List.append_nil]
    rfl
  · have hover : count + 1 - answers.length = count - answers.length + 1 := by omega
    rw [hover, List.replicate_succ', List.drop_of_length_le (by omega),
      List.take_of_length_le (by omega), List.take_of_length_le (by omega), List.append_assoc]
    rfl

/-! ## Operations and the answers that are left -/

section Left

variable (c : Console)

@[simp] theorem left_write (text : String) : (c.write text).2.left = c.left := rfl

@[simp] theorem left_setSink (sink : Sink) : (c.setSink sink).left = c.left := rfl

@[simp] theorem left_setInput (input : List UInt8) :
    (c.setInput input).left = (linesOf input).flatMap answersOfLine := rfl

@[simp] theorem left_ofInput (input : List UInt8) (limit : Option Nat) :
    (ofInput input limit).left = (linesOf input).flatMap answersOfLine := rfl

/-- Lines are taken until one has an answer, which is the first of all that they have. -/
theorem takeWord_eq (lines : List (List UInt8)) :
    (takeWord lines).1 = (lines.flatMap answersOfLine).headD .ended ∧
      (takeWord lines).2.1.map .word ++ (takeWord lines).2.2.flatMap answersOfLine =
        (lines.flatMap answersOfLine).tail := by
  induction lines with
  | nil => exact ⟨rfl, rfl⟩
  | cons line lines ih =>
      rw [takeWord, List.flatMap_cons, answersOfLine]
      cases Text.ofBytes? line with
      | none => exact ⟨rfl, rfl⟩
      | some text =>
          dsimp only
          cases Text.words text with
          | nil => exact ih
          | cons word rest => exact ⟨rfl, rfl⟩

/-- A read is answered with the first answer that is left. -/
theorem answer_readWord : c.readWord.1 = c.left.headD .ended := by
  unfold readWord left
  cases c.pending with
  | nil => exact (takeWord_eq c.lines).1
  | cons word rest => rfl

@[simp] theorem left_readWord : c.readWord.2.left = c.left.tail := by
  unfold readWord left
  cases c.pending with
  | nil => exact (takeWord_eq c.lines).2
  | cons word rest => rfl

end Left

/-! ## Histories -/

/-- An operation on a console. -/
inductive Operation
  | read
  | write (text : String)
  | setInput (input : List UInt8)
  | setSink (sink : Sink)

namespace Operation

def apply (c : Console) : Operation → Console
  | .read => c.readWord.2
  | .write text => (c.write text).2
  | .setInput input => c.setInput input
  | .setSink sink => c.setSink sink

/-- Whether the operation has to do with the input. -/
def onInput : Operation → Bool
  | .read | .setInput _ => true
  | .write _ | .setSink _ => false

end Operation

/-- The operations that a console has seen, the newest first. -/
abbrev History := List Operation

namespace History

/-- The console after some operations. -/
def replay (c : Console) : History → Console
  | [] => c
  | op :: older => op.apply (replay c older)

/-- The answers to the reads since the input was set, the oldest first. -/
def answers (c : Console) : History → List Answer
  | [] => []
  | .read :: older => answers c older ++ [(replay c older).readWord.1]
  | .setInput _ :: _ => []
  | .write _ :: older | .setSink _ :: older => answers c older

/-- The input that was set last, if it is `first` that the console has to begin with. -/
def input (first : List UInt8) : History → List UInt8
  | [] => first
  | .setInput last :: _ => last
  | .read :: older | .write _ :: older | .setSink _ :: older => input first older

/-- How many reads there have been since the input was set. -/
def reads : History → Nat
  | [] => 0
  | .read :: older => reads older + 1
  | .setInput _ :: _ => 0
  | .write _ :: older | .setSink _ :: older => reads older

/-- The answers that are left are those of the input that have not been given. -/
theorem left_replay (first : List UInt8) (limit : Option Nat) (h : History) :
    (h.replay (ofInput first limit)).left =
      ((linesOf (h.input first)).flatMap answersOfLine).drop h.reads := by
  induction h with
  | nil => rfl
  | cons op older ih =>
      cases op with
      | read => rw [replay, Operation.apply, left_readWord, ih, List.tail_drop, reads, input]
      | write text => exact ih
      | setInput input => rfl
      | setSink sink => exact ih

theorem answers_eq (first : List UInt8) (limit : Option Nat) (h : History) :
    h.answers (ofInput first limit) =
      firstAnswers ((linesOf (h.input first)).flatMap answersOfLine) h.reads := by
  induction h with
  | nil => exact (firstAnswers_zero _).symm
  | cons op older ih =>
      cases op with
      | read => rw [answers, ih, answer_readWord, left_replay, reads, input, firstAnswers_succ]
      | write text => exact ih
      | setInput input => exact (firstAnswers_zero _).symm
      | setSink sink => exact ih

/-- Operations that have to do with the output do not count. -/
theorem input_filter (first : List UInt8) (h : History) :
    input first (h.filter Operation.onInput) = h.input first := by
  induction h with
  | nil => rfl
  | cons op older ih =>
      cases op with
      | setInput last => rfl
      | read | write | setSink => exact ih

theorem reads_filter (h : History) : reads (h.filter Operation.onInput) = h.reads := by
  induction h with
  | nil => rfl
  | cons op older ih =>
      cases op with
      | read => exact congrArg (· + 1) ih
      | setInput input => rfl
      | write | setSink => exact ih

end History

/-! ## What an input tells -/

/-- The answers of a text are its words, wherever its lines end. -/
theorem answersOfLine_text (text : String) :
    (linesOf (Text.bytes text)).flatMap answersOfLine = (Text.words text).map .word := by
  obtain ⟨lines, hlines, hwords⟩ := exists_lines text
  have hline : ∀ line : String, answersOfLine (Text.bytes line) = (Text.words line).map .word := by
    intro line
    simp [answersOfLine]
  rw [hlines, ← hwords, List.flatMap_map, List.map_flatMap]
  simp only [hline]

/-- After any operations on a console, the reads since its input was set have been answered line
by line, with the words of a line that is a text and with one failure for a line that is not,
and then with the end of the input. If the input is a text, these are the words of the text.
What was done to the output before or in between does not matter. -/
theorem reads_answered_in_order (first : List UInt8) (limit : Option Nat) (h : History) :
    (∃ lines, Lines (h.input first) lines ∧
      h.answers (ofInput first limit) = firstAnswers (lines.flatMap answersOfLine) h.reads) ∧
    (∀ text, h.input first = Text.bytes text → h.answers (ofInput first limit) =
      firstAnswers ((Text.words text).map .word) h.reads) ∧
    History.answers (ofInput first limit) (h.filter Operation.onInput) =
      h.answers (ofInput first limit) := by
  refine ⟨⟨linesOf (h.input first), lines_linesOf _, h.answers_eq first limit⟩, ?_, ?_⟩
  · intro text htext
    rw [h.answers_eq, htext, answersOfLine_text]
  · rw [History.answers_eq, History.answers_eq, History.input_filter, History.reads_filter]

-- The second of three lines is no text, and the last one has no line feed.
example :
    History.answers (ofInput [97, 10, 255, 10, 98] none) [.read, .read, .write "x", .read, .read] =
      [.word "a", .error .notText, .word "b", .ended] := by
  decide +kernel

end Console

end ScopeLang
