-- SUMMARY: Two programs, one below the other, are one program, which does what they do in turn.
import ScopeLang.Proofs.MovedPlaces
import ScopeLang.Proofs.PlaceIndependence
import ScopeLang.Proofs.Positions

/-! # Programs below one another

A source text can be put below another one, with a line feed in between. No part of
the upper text goes on behind the line feed: lexemes stand on one line, and a
comment ends with its line. So the tokens are those of the two texts, the lower
ones moved down by the lines of the upper text. A program stops only between
statements, so the statements are those of the two programs, and running them comes
to running the one program and then the other.
-/

namespace ScopeLang

/-! ## Lines -/

namespace Span

/-- The place so many lines further down. -/
def down (lines : Nat) (s : Span) : Span :=
  ⟨s.line + lines, s.column⟩

theorem after_down (lines : Nat) (s : Span) (bs : List UInt8) :
    (s.down lines).after bs = (s.after bs).down lines := by
  induction bs generalizing s with
  | nil => rfl
  | cons b bs ih =>
      have hstep : (s.down lines).step b = (s.step b).down lines := by
        unfold step down
        split <;> simp only [Nat.add_right_comm]
      simp only [after_cons, hstep, ih]

/-- A text below another one starts as many lines down as the upper one has. -/
theorem start_after_lineFeed (bs : List UInt8) :
    start.after (bs ++ [lineFeed]) = start.down (bs.count lineFeed + 1) := by
  have hafter : start.after bs = ofOffset bs bs.length := by
    simpa only [List.take_length] using start_after_take bs bs.length
  have hline : (start.after bs).line = 1 + bs.count lineFeed := by
    simp only [hafter, ofOffset, List.take_length]
  simp only [after_append, after_cons, after_nil, step, if_true, hline]
  simp only [down, start, Nat.add_assoc]

end Span

/-! ## Tokens -/

namespace Lexical

/-- What has no line feed and stands at the front of a text that goes on with one stands in
front of it. -/
theorem isPrefix_of_lineFeed_notMem {xs bs rest : List UInt8} (h : Span.lineFeed ∉ xs)
    (hfront : xs <+: bs ++ Span.lineFeed :: rest) : xs <+: bs := by
  rcases List.prefix_or_prefix_of_prefix hfront (List.prefix_append bs _) with hxs | ⟨more, rfl⟩
  · exact hxs
  · rcases List.prefix_cons_iff.1 ((List.prefix_append_right_inj bs).1 hfront) with rfl | hmore
    · simp
    · rcases hmore with ⟨more, rfl, -⟩
      simp at h

/-- A part may stand before a line that is added below. -/
theorem Stands.line {part : Part} {rest : List UInt8} (h : Stands part rest)
    (below : List UInt8) : Stands part (rest ++ Span.lineFeed :: below) := by
  cases h with
  | blank hb => exact .blank hb
  | comment inside ends =>
      apply Stands.comment inside
      rcases ends with rfl | hhead
      · exact .inr rfl
      · right
        rcases List.head?_eq_some_iff.1 hhead with ⟨more, rfl⟩
        rfl
  | lexeme spells noComment longest =>
      apply Stands.lexeme spells
      · intro hcomment
        rw [← List.append_assoc] at hcomment
        exact noComment (isPrefix_of_lineFeed_notMem (by decide) hcomment)
      · intro bs' l' hspells hfront
        rw [← List.append_assoc] at hfront
        exact longest bs' l' hspells (isPrefix_of_lineFeed_notMem hspells.lineFeed_notMem hfront)

theorem Splits.line {parts : List Part} {rest : List UInt8} (h : Splits parts rest)
    (below : List UInt8) : Splits parts (rest ++ Span.lineFeed :: below) := by
  induction h with
  | nil rest => exact .nil _
  | cons first _ ih =>
      apply Splits.cons _ ih
      simpa only [List.append_assoc] using first.line below

theorem textOf_append (parts more : List Part) :
    textOf (parts ++ more) = textOf parts ++ textOf more := by
  simp only [textOf, List.flatMap_append]

theorem Splits.append {parts more : List Part} {rest : List UInt8}
    (h : Splits parts (textOf more ++ rest)) (hmore : Splits more rest) :
    Splits (parts ++ more) rest := by
  induction parts with
  | nil => exact hmore
  | cons part parts ih =>
      cases h with
      | cons first others =>
          apply Splits.cons _ (ih others)
          simpa only [textOf_append, List.append_assoc] using first

/-- Two texts and a line feed between them. -/
def joined (upper lower : List Part) : List Part :=
  upper ++ ⟨[Span.lineFeed], none⟩ :: lower

section Joined

variable {upper lower : List Part}

theorem Splits.joined (hupper : Splits upper []) (hlower : Splits lower []) :
    Splits (joined upper lower) [] := by
  apply Splits.append
  · simpa using hupper.line (textOf lower)
  · exact .cons (.blank (.inr (.inr (.inr rfl)))) hlower

theorem textOf_joined :
    textOf (joined upper lower) = textOf upper ++ Span.lineFeed :: textOf lower := by
  simp [joined, textOf_append]

end Joined

theorem tokensFrom_append (here : Span) (parts more : List Part) :
    tokensFrom here (parts ++ more) =
      tokensFrom here parts ++ tokensFrom (here.after (textOf parts)) more := by
  induction parts generalizing here with
  | nil => rfl
  | cons part parts ih =>
      simp only [List.cons_append, tokensFrom, ih, textOf_cons, Span.after_append,
        List.append_assoc]

theorem tokensFrom_down (lines : Nat) (here : Span) (parts : List Part) :
    tokensFrom (here.down lines) parts =
      (tokensFrom here parts).map (Token.moved (Span.down lines)) := by
  induction parts generalizing here with
  | nil => rfl
  | cons part parts ih =>
      simp only [tokensFrom, List.map_append, Span.after_down, ih]
      cases part.lexeme? <;> rfl

/-- The tokens of the lower text are moved down by the lines of the upper one. -/
theorem tokensFrom_joined (upper lower : List Part) :
    tokensFrom Span.start (joined upper lower) =
      tokensFrom Span.start upper ++ (tokensFrom Span.start lower).map
        (Token.moved (Span.down ((textOf upper).count Span.lineFeed + 1))) := by
  simp only [joined, tokensFrom_append, ← tokensFrom_down, ← Span.start_after_lineFeed]
  simp [tokensFrom, Span.after_append]

end Lexical

/-! ## Trees -/

open Grammar Lexical

section Parse

variable {source : String} {n : Node}

/-- What parses splits into parts, and the tree is that of the statements that their tokens are. -/
theorem parse_eq_ok_iff : parse source = .ok n ↔
    ∃ parts, ∃ body : Derivation (.many .statement), Splits parts [] ∧
      textOf parts = Text.bytes source ∧ body.tokens = tokensFrom Span.start parts ∧
      n = .inner .program body.place body.tree := by
  let stop : Token := ⟨.endOfInput, Span.start.after (Text.bytes source)⟩
  have hverdict : ∀ parts, Splits parts [] → textOf parts = Text.bytes source →
      (parse source = .ok n ↔
        ∃ d : Grammar.Program, d.tokens = tokensFrom Span.start parts ∧ d.tree = n) := by
    intro parts hsplits htext
    have hfree : EndFree (tokensFrom Span.start parts) := by
      intro t ht hend
      have hmem := List.mem_map_of_mem (f := Token.lexeme) ht
      rw [lexemes_tokensFrom, hend] at hmem
      exact endOfInput_notMem_lexemesOf hsplits hmem
    have hparse : parse source = parseTokens (tokensFrom Span.start parts ++ [stop]) := by
      unfold parse
      rw [tokenize_of_splits_all hsplits htext]
      rfl
    rw [hparse]
    exact parseTokens_eq_ok_iff hfree (ofTokens_append_end _ rfl)
  constructor
  · intro h
    cases htokenize : tokenize source with
    | error f =>
        simp only [parse, htokenize] at h
        cases h
    | ok tokens =>
        rcases exists_splits_of_ok htokenize with ⟨parts, hsplits, htext, -⟩
        rcases (hverdict parts hsplits htext).1 h with ⟨d, htokens, htree⟩
        cases d with
        | program body => exact ⟨parts, body, hsplits, htext, htokens, htree.symm⟩
  · rintro ⟨parts, body, hsplits, htext, htokens, htree⟩
    exact (hverdict parts hsplits htext).2 ⟨.program body, htokens, htree.symm⟩

/-- What parses is a program with some statements. -/
theorem exists_statement_of_parse (h : parse source = .ok n) :
    n.tag = .program ∧ n.children ≠ [] := by
  rcases parse_eq_ok_iff.1 h with ⟨parts, body, -, -, -, rfl⟩
  exact ⟨rfl, body.tree_ne_nil⟩

end Parse

/-- How many lines a text has. The last one has no line feed. -/
def Text.lineCount (s : String) : Nat :=
  (bytes s).count Span.lineFeed + 1

/-- The statements of a program and then those of a program that stands below. -/
def Node.above (upper : Node) (lines : Nat) (lower : Node) : Node :=
  { upper with children := upper.children ++ lower.children.map (moved (Span.down lines)) }

theorem parse_above {p q : String} {a b : Node} (hp : parse p = .ok a) (hq : parse q = .ok b) :
    parse (p ++ "\n" ++ q) = .ok (a.above (Text.lineCount p) b) := by
  rcases parse_eq_ok_iff.1 hp with ⟨upper, body, hupper, htextp, htokens, rfl⟩
  rcases parse_eq_ok_iff.1 hq with ⟨lower, body', hlower, htextq, htokens', rfl⟩
  let below := body'.moved (Span.down (Text.lineCount p))
  have hbelow : below.tree = body'.tree.map (Node.moved (Span.down (Text.lineCount p))) :=
    body'.moved_tree
  refine parse_eq_ok_iff.2 ⟨joined upper lower, body.append below, hupper.joined hlower, ?_, ?_, ?_⟩
  · simp only [textOf_joined, htextp, htextq, Text.bytes_append, List.append_assoc]
    rfl
  · simp only [Derivation.tokens_append, Derivation.tokens_moved, below, tokensFrom_joined,
      htokens, htokens', htextp, Text.lineCount]
  · simp only [Derivation.place_append, Derivation.tree_append, hbelow]
    rfl

/-! ## Runs -/

theorem Exec.sequence_append (run : Node → ScopeId → Exec Value) (ns : List Node)
    {more : List Node} (hmore : more ≠ []) (env : ScopeId) :
    sequence run (ns ++ more) env = (do
      let _ ← sequence run ns env
      sequence run more env) := by
  unfold sequence
  simp only [List.foldlM_append]
  congr 1
  funext v
  -- The value before the first of the statements is lost.
  cases more with
  | nil => exact absurd rfl hmore
  | cons n more => rfl

/-- Run a tree, and then another one in the same global scope. -/
def executeBoth (fuel : Nat) (a b : Node) : Exec Value := do
  let _ ← execute fuel a
  execute fuel b

theorem execute_above {a b : Node} (ha : a.tag = .program) (hb : b.tag = .program)
    (hsome : b.children ≠ []) (fuel lines : Nat) :
    execute fuel (a.above lines b) = executeBoth fuel a (b.moved (Span.down lines)) := by
  have hmoved : b.children.map (Node.moved (Span.down lines)) ≠ [] := by
    simpa using hsome
  cases fuel with
  | zero => rfl
  | succ fuel =>
      unfold executeBoth execute eval Exec.step Node.above
      simp only [ha, hb, Node.tag_moved, Node.children_moved]
      exact Exec.sequence_append _ _ hmoved _

/-- Two programs can be put below one another. The statements of the one that they make are those
of the upper program, and those of the lower one further down by the lines of the upper text. It
does what the upper program does and then, if that returns, what the lower one does: it ends with
a value that looks the same or with a fault of the same code and message, has written the same,
and has the same global bindings, but for the places in the bodies of functions. -/
theorem programs_concatenate {p q : String} {a b : Node} (hp : parse p = .ok a)
    (hq : parse q = .ok b) :
    parse (p ++ "\n" ++ q) = .ok (a.above (Text.lineCount p) b) ∧
      ∀ fuel console,
        let run := execute fuel (a.above (Text.lineCount p) b)
        let both := executeBoth fuel a b
        run.observed console = both.observed console ∧
          upToPlaces.Bindings ((both.final (.initial console)).store.bindings Store.globalId)
            ((run.final (.initial console)).store.bindings Store.globalId) := by
  refine ⟨parse_above hp hq, fun fuel console => ?_⟩
  rcases exists_statement_of_parse hp with ⟨ha, -⟩
  rcases exists_statement_of_parse hq with ⟨hb, hsome⟩
  have hruns : upToPlaces.Relates upToPlaces.Values (executeBoth fuel a b)
      (execute fuel (a.above (Text.lineCount p) b)) := by
    simp only [execute_above ha hb hsome]
    have hupper : upToPlaces.Relates upToPlaces.Values (execute fuel a) (execute fuel a) :=
      lawful_upToPlaces.eval fuel rfl trivial
    exact hupper.bind fun _ _ _ => lawful_upToPlaces.eval fuel (Node.unplaced_moved b).symm trivial
  constructor
  · exact observed_eq_of_relates hruns console
  · exact (hruns.final (machines_initial console)).store.bindings trivial

/-- The upper program ends with a conditional and a comment that starts like an alternative. The
lower one has two lines, and stops on the second. -/
theorem programs_concatenate_comment :
    let p := "var x; x = 1; if (x) \x7b print(x); \x7d // else"
    let q := "x = 2;\nprint(x); x / 0;"
    ∃ a b c, parse p = .ok a ∧ parse q = .ok b ∧ parse (p ++ "\n" ++ q) = .ok c ∧
      c.children.map (·.span.line) = [1, 1, 1, 2, 3, 3] ∧
      (execute 9 c).observed {} = (executeBoth 9 a b).observed {} ∧
      ((executeBoth 9 a b).observed {}).output = (Text.bytes "12").toArray ∧
      ((executeBoth 9 a b).observed {}).ending =
        .error (some (.divisionByZero, "attempt to divide by 0")) := by
  intro p q
  have hboth : (parse p).bind (fun a => (parse q).map fun b =>
      (((a.above 1 b).children.map (·.span.line), ((executeBoth 9 a b).observed {}).output),
        ((executeBoth 9 a b).observed {}).ending)) =
      .ok (([1, 1, 1, 2, 3, 3], (Text.bytes "12").toArray),
        .error (some (.divisionByZero, "attempt to divide by 0"))) := by
    decide +kernel
  cases hp : parse p with
  | error f =>
      simp only [hp] at hboth
      cases hboth
  | ok a =>
      cases hq : parse q with
      | error f =>
          simp only [hp, hq] at hboth
          cases hboth
      | ok b =>
          simp only [hp, hq] at hboth
          rcases Prod.mk.inj (Except.ok.inj hboth) with ⟨hrest, hending⟩
          rcases Prod.mk.inj hrest with ⟨hlines, houtput⟩
          have hconcatenate := programs_concatenate hp hq
          have hcount : Text.lineCount p = 1 := by decide +kernel
          simp only [hcount] at hconcatenate
          exact ⟨a, b, a.above 1 b, rfl, rfl, hconcatenate.1, hlines,
            (hconcatenate.2 9 {}).1, houtput, hending⟩

end ScopeLang
