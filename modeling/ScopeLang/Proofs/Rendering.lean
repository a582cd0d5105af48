-- SUMMARY: The source text of a well-formed tree is one that derives the tree.
import ScopeLang.Proofs.ParseExpression
import ScopeLang.Proofs.Scanning
import ScopeLang.Tree.Source
import Mathlib.Data.List.Forall2

/-! # Source texts of trees

`Writes` relates a text to what it derives: however its lexemes are placed, some
derivation has them for its text. The rules put such texts together in step with
the rules of the grammar, so that what `Node.source` writes for a node, piece by
piece, is seen to derive the node. Places are not written, so a tree is only
found again up to its places; `Node.unplaced` takes them away.
-/

namespace ScopeLang

namespace Node

mutual

/-- The tree with every node at the same place. -/
def unplaced : Node → Node
  | ⟨tag, text, _, children⟩ => ⟨tag, text, .nowhere, unplacedAll children⟩

def unplacedAll : List Node → List Node
  | [] => []
  | n :: ns => unplaced n :: unplacedAll ns

end

@[simp] theorem unplacedAll_eq_map (ns : List Node) : unplacedAll ns = ns.map unplaced := by
  induction ns with
  | nil => rfl
  | cons n ns ih => rw [unplacedAll, ih, List.map_cons]

end Node

open Grammar Grammar.Derivation

/-! ## Texts and what they derive -/

/-- The text scans to lexemes that, wherever they are placed, are the text of
something good. What may follow is as in `Scans`. -/
def Writes {α : Type} (follow : UInt8 → Bool) (s : String) (text : α → List Token)
    (good : α → Prop) : Prop :=
  ∃ ls, Scans follow (Text.bytes s) ls ∧
    ∀ ts : List Token, ts.map Token.lexeme = ls → ∃ a, text a = ts ∧ good a

namespace Writes

variable {α β γ : Type} {follow follow' : UInt8 → Bool} {s t : String}
  {text : α → List Token} {good : α → Prop} {text' : β → List Token} {good' : β → Prop}

/-- A single lexeme. -/
theorem lexeme {l : Lexeme} (h : Scans follow (Text.bytes s) [l]) :
    Writes follow s (fun place : Span => [⟨l, place⟩]) (fun _ => True) := by
  refine ⟨[l], h, ?_⟩
  intro ts hts
  obtain ⟨t, rfl, rfl⟩ := List.map_eq_singleton_iff.1 hts
  exact ⟨t.span, rfl, trivial⟩

/-- One text after another, if the second may follow the first. -/
theorem append (h : Writes follow s text good) (h' : Writes follow' t text' good')
    (hnext : ∀ rest, NextByte follow' rest → NextByte follow (Text.bytes t ++ rest)) :
    Writes follow' (s ++ t) (fun x : α × β => text x.1 ++ text' x.2)
      (fun x => good x.1 ∧ good' x.2) := by
  obtain ⟨ls, hscans, hderives⟩ := h
  obtain ⟨ls', hscans', hderives'⟩ := h'
  refine ⟨ls ++ ls', ?_, ?_⟩
  · rw [Text.bytes_append]
    exact hscans.append hscans' hnext
  · intro ts hts
    obtain ⟨u, v, rfl, hu, hv⟩ := List.map_eq_append_iff.1 hts
    obtain ⟨a, rfl, ha⟩ := hderives u hu
    obtain ⟨b, rfl, hb⟩ := hderives' v hv
    exact ⟨(a, b), rfl, ha, hb⟩

/-- A text that anything may follow, and another one. -/
theorem appendAny (h : Writes anyByte s text good) (h' : Writes follow t text' good') :
    Writes follow (s ++ t) (fun x : α × β => text x.1 ++ text' x.2)
      (fun x => good x.1 ∧ good' x.2) :=
  h.append h' fun _ _ _ _ => rfl

/-- Blanks in front. -/
theorem afterGap (hgap : Scans anyByte (Text.bytes s) []) (h : Writes follow t text good) :
    Writes follow (s ++ t) text good := by
  obtain ⟨ls, hscans, hderives⟩ := h
  refine ⟨ls, ?_, hderives⟩
  rw [Text.bytes_append]
  exact hgap.appendAny hscans

/-- Blanks behind. -/
theorem beforeGap (h : Writes follow s text good) (hgap : Scans follow' (Text.bytes t) [])
    (hnext : ∀ rest, NextByte follow' rest → NextByte follow (Text.bytes t ++ rest)) :
    Writes follow' (s ++ t) text good := by
  obtain ⟨ls, hscans, hderives⟩ := h
  refine ⟨ls, ?_, hderives⟩
  rw [Text.bytes_append, ← List.append_nil ls]
  exact hscans.append hgap hnext

/-- The same text derived in another way. -/
theorem map (h : Writes follow s text good)
    (hmap : ∀ a, good a → ∃ b, text' b = text a ∧ good' b) : Writes follow s text' good' := by
  obtain ⟨ls, hscans, hderives⟩ := h
  refine ⟨ls, hscans, ?_⟩
  intro ts hts
  obtain ⟨a, rfl, ha⟩ := hderives ts hts
  exact hmap a ha

end Writes

/-- The text derives the node, up to places. -/
def WritesNode (follow : UInt8 → Bool) (s : String) (p : Phrase) (n : Node) : Prop :=
  Writes follow s (tokens (s := .one p)) fun d => d.tree.unplaced = n.unplaced

/-! ## Lexemes and blanks -/

theorem scans_blank {follow : UInt8 → Bool} : Scans follow (Text.bytes " ") [] := by
  change Scans follow [32] []
  exact .blanks (by simp [Byte.isBlank])

theorem scans_newline {follow : UInt8 → Bool} : Scans follow (Text.bytes "\n") [] := by
  change Scans follow [10] []
  exact .blanks (by simp [Byte.isBlank])

theorem scans_indent (depth : Nat) : Scans anyByte (Text.bytes (Node.indent depth)) [] := by
  induction depth with
  | zero => exact .nil
  | succ depth ih =>
      rw [Node.indent, List.replicate_succ, String.join_cons, Text.bytes_append]
      have hstep : Scans anyByte [32, 32, 32, 32] [] := .blanks (by simp [Byte.isBlank])
      exact hstep.appendAny ih

theorem writes_mark {follow : UInt8 → Bool} {m : Mark} (h : m ≠ .assign) :
    Writes follow m.spelling (fun place : Span => [⟨.mark m, place⟩]) (fun _ => True) :=
  .lexeme (.mark h)

theorem writes_keyword (k : Keyword) :
    Writes endsWord k.spelling (fun place : Span => [⟨.keyword k, place⟩]) (fun _ => True) := by
  have hword : Scans endsWord (Text.bytes k.spelling) [.ofWord k.spelling] :=
    .word (by cases k <;> decide)
  have hkeyword : Lexeme.ofWord k.spelling = .keyword k := by cases k <;> decide
  rw [hkeyword] at hword
  exact .lexeme hword

theorem writes_name {spelling : String} (h : Vocabulary.lexical.name spelling) :
    Writes endsWord spelling (fun place : Span => [⟨.name spelling, place⟩]) (fun _ => True) := by
  have hword : Scans endsWord (Text.bytes spelling) [.ofWord spelling] := .word h.1
  have hname : Lexeme.ofWord spelling = .name spelling := by
    have hnone : Keyword.all.find? (·.spelling == spelling) = none :=
      List.find?_eq_none.2 fun k _ hk => h.2 k (eq_of_beq hk)
    rw [Lexeme.ofWord, hnone]
  rw [hname] at hword
  exact .lexeme hword

/-! ## Expressions -/

/-- An operator of a level between two operands. -/
theorem exists_operation (l : Level) {op : Operator} (belongs : l.operators op = true)
    (place : Span) (left right : Derivation (.one l.operand)) :
    ∃ d : Derivation (.one (.level l)),
      d.tokens = left.tokens ++ ⟨.operator op, place⟩ :: right.tokens ∧
        d.tree = .inner (.binary op) place [left.tree, right.tree] := by
  cases hl : l.goesOn with
  | false => exact ⟨.level l left (.onlyOperation l hl op belongs place right), rfl, rfl⟩
  | true =>
      refine ⟨.level l left (.moreOperations l hl op belongs place right (.noOperation l)), ?_, rfl⟩
      simp [tokens]

theorem exists_operand (l : Level) (d : Derivation (.one .primary)) :
    ∃ e : Derivation (.one l.operand), e.tokens = d.tokens ∧ e.tree = d.tree := by
  cases l with
  | product => exact ⟨d, rfl, rfl⟩
  | sum => exact ⟨ofPrimary d .product, tokens_ofPrimary d _, rfl⟩
  | relation => exact ⟨ofPrimary d .sum, tokens_ofPrimary d _, rfl⟩
  | logical => exact ⟨ofPrimary d .relation, tokens_ofPrimary d _, rfl⟩

theorem exists_expression {l : Level} (d : Derivation (.one (.level l))) :
    ∃ e : Derivation (.one .expression), e.tokens = d.tokens ∧ e.tree = d.tree := by
  have hstep : ∀ (l : Level) (d : Derivation (.one l.operand)), (ofOperand l d).tokens = d.tokens :=
    fun l d => List.append_nil _
  cases l with
  | logical => exact ⟨.logical d, rfl, rfl⟩
  | relation => exact ⟨.logical (ofOperand .logical d), hstep .logical d, rfl⟩
  | sum =>
      exact ⟨.logical (ofOperand .logical (ofOperand .relation d)),
        (hstep .logical _).trans (hstep .relation d), rfl⟩
  | product =>
      exact ⟨.logical (ofOperand .logical (ofOperand .relation (ofOperand .sum d))),
        ((hstep .logical _).trans (hstep .relation _)).trans (hstep .sum d), rfl⟩

/-- Every operator belongs to a level. -/
theorem exists_level (op : Operator) : ∃ l : Level, l.operators op = true := by
  rcases op with op | op | op
  · cases op with
    | add | sub => exact ⟨.sum, rfl⟩
    | mul | div => exact ⟨.product, rfl⟩
  · exact ⟨.relation, rfl⟩
  · exact ⟨.logical, rfl⟩

/-- An operator between two primaries. -/
theorem exists_binary (op : Operator) (place : Span) (left right : Derivation (.one .primary)) :
    ∃ d : Derivation (.one .expression),
      d.tokens = left.tokens ++ ⟨.operator op, place⟩ :: right.tokens ∧
        d.tree = .inner (.binary op) place [left.tree, right.tree] := by
  obtain ⟨l, belongs⟩ := exists_level op
  obtain ⟨left', hleft, hleft'⟩ := exists_operand l left
  obtain ⟨right', hright, hright'⟩ := exists_operand l right
  obtain ⟨d, htokens, htree⟩ := exists_operation l belongs place left' right'
  obtain ⟨e, he, he'⟩ := exists_expression d
  refine ⟨e, ?_, ?_⟩
  · rw [he, htokens, hleft, hright]
  · rw [he', htree, hleft', hright']

section Expressions

variable {follow : UInt8 → Bool}

theorem WritesNode.expression {s : String} {n : Node} (h : WritesNode follow s .primary n) :
    WritesNode follow s .expression n := by
  refine h.map fun d hd => ⟨expressionOfPrimary d, tokens_ofPrimary d .logical, hd⟩

/-- An expression in parentheses. -/
theorem WritesNode.group {s : String} {n : Node} (h : WritesNode endsWord s .expression n) :
    WritesNode follow ("(" ++ s ++ ")") .primary n := by
  have hopen : Writes anyByte "(" _ _ := writes_mark (m := .openParen) (by decide)
  have hclose : Writes follow ")" _ _ := writes_mark (m := .closeParen) (by decide)
  refine ((hopen.appendAny h).append hclose ?_).map ?_
  · exact fun _ _ => .of_cons rfl
  · rintro ⟨⟨opening, d⟩, closing⟩ ⟨⟨-, hd⟩, -⟩
    exact ⟨.group opening d closing, rfl, hd⟩

/-- An operator with blanks around it. -/
theorem writesNode_binary {op : Operator} {place : Span} {left right : Node} {l r : String}
    (hleft : WritesNode endsWord l .primary left) (hright : WritesNode endsWord r .primary right) :
    WritesNode endsWord (l ++ " " ++ op.spelling ++ " " ++ r) .expression
      (.inner (.binary op) place [left, right]) := by
  have hop : Writes (· == 32) op.spelling _ _ := .lexeme (.operator op)
  have hfirst : Writes anyByte (l ++ " ") _ _ := hleft.beforeGap scans_blank fun _ _ => .of_cons rfl
  have hsecond : Writes anyByte (l ++ " " ++ op.spelling ++ " ") _ _ :=
    (hfirst.appendAny hop).beforeGap scans_blank fun _ _ => .of_cons rfl
  refine (hsecond.appendAny hright).map ?_
  rintro ⟨⟨d, place'⟩, d'⟩ ⟨⟨hd, -⟩, hd'⟩
  obtain ⟨e, htokens, htree⟩ := exists_binary op place' d d'
  refine ⟨e, by simp [htokens], ?_⟩
  rw [htree]
  simp [Node.inner, Node.unplaced, hd, hd']

/-- The target and the value of an assignment. -/
theorem writesNode_assignment {target : String} {place equals : Span} {value : Node} {v : String}
    (htarget : Vocabulary.lexical.name target) (hvalue : WritesNode endsWord v .primary value) :
    WritesNode endsWord (target ++ " = " ++ v) .expression
      (.inner .assignment equals [.leaf .name target place, value]) := by
  have hequals : Writes anyByte " = " (fun place : Span => [⟨.mark .assign, place⟩])
      (fun _ => True) := by
    refine .lexeme ?_
    have hmark : Scans anyByte (Text.bytes "=" ++ Text.bytes " ") [.mark .assign] :=
      Scans.assign.append scans_blank fun _ _ => .of_cons rfl
    have hblank : Scans anyByte (Text.bytes " ") [] := scans_blank
    exact hblank.appendAny hmark
  have hfirst := (writes_name htarget).append hequals fun _ _ => .of_cons rfl
  refine (hfirst.appendAny hvalue).map ?_
  rintro ⟨⟨place', equals'⟩, d⟩ ⟨-, hd⟩
  refine ⟨.assignment target place' equals' (expressionOfPrimary d), ?_, ?_⟩
  · simp [tokens, expressionOfPrimary]
  · have htree : (expressionOfPrimary d).tree = d.tree := rfl
    simp [tree, htree, Node.inner, Node.leaf, Node.unplaced, hd]

/-- A comma and a blank. -/
theorem writes_comma :
    Writes anyByte ", " (fun place : Span => [⟨.mark .comma, place⟩]) (fun _ => True) := by
  have hcomma : Writes anyByte "," _ _ := writes_mark (m := .comma) (by decide)
  exact hcomma.beforeGap scans_blank fun _ _ _ _ => rfl

/-- Nodes with commas between them. -/
theorem writes_separated {p : Phrase} {ns : List Node} {ss : List String}
    (h : ns.Forall₂ (fun n s => WritesNode endsWord s p n) ss) (hsome : ns ≠ []) :
    Writes endsWord (", ".intercalate ss) (tokens (s := .separated p))
      (fun d => d.tree.map Node.unplaced = ns.map Node.unplaced) := by
  induction h with
  | nil => exact absurd rfl hsome
  | @cons n s ns ss hfirst hrest ih =>
      cases hrest with
      | nil =>
          rw [String.intercalate_singleton]
          exact hfirst.map fun d hd => ⟨.lastItem p d, rfl, by simp [tree, hd]⟩
      | @cons n' s' ns ss =>
          rw [String.intercalate_cons_cons]
          have hcomma := hfirst.append writes_comma fun _ _ => .of_cons rfl
          refine (hcomma.appendAny (ih (by simp))).map ?_
          rintro ⟨⟨d, comma⟩, list⟩ ⟨⟨hd, -⟩, hlist⟩
          exact ⟨.moreItems p d comma list, by simp [tokens], by simp [tree, hd, hlist]⟩

/-- A list in parentheses. -/
theorem writes_parenthesized {p : Phrase} {ns : List Node} {ss : List String}
    (h : ns.Forall₂ (fun n s => WritesNode endsWord s p n) ss) :
    Writes follow ("(" ++ ", ".intercalate ss ++ ")") (tokens (s := .parenthesized p))
      (fun d => d.tree.1.map Node.unplaced = ns.map Node.unplaced) := by
  have hopen : Writes anyByte "(" _ _ := writes_mark (m := .openParen) (by decide)
  have hclose : Writes follow ")" _ _ := writes_mark (m := .closeParen) (by decide)
  cases h with
  | nil =>
      refine (hopen.appendAny hclose).map ?_
      rintro ⟨opening, closing⟩ -
      exact ⟨.noItems p opening closing, rfl, rfl⟩
  | cons hfirst hrest =>
      have hlist := writes_separated (.cons hfirst hrest) (by simp)
      refine ((hopen.appendAny hlist).append hclose fun _ _ => .of_cons rfl).map ?_
      rintro ⟨⟨opening, list⟩, closing⟩ ⟨⟨-, hlist⟩, -⟩
      exact ⟨.items p opening list closing, rfl, hlist⟩

/-- A name and a list in parentheses. -/
theorem writesNode_call {callee : String} {place opening : Span} {arguments : List Node}
    {ss : List String} (hcallee : Vocabulary.lexical.name callee)
    (h : arguments.Forall₂ (fun n s => WritesNode endsWord s .expression n) ss) :
    WritesNode follow (callee ++ "(" ++ ", ".intercalate ss ++ ")") .primary
      ⟨.call, callee, place, [.inner .arguments opening arguments]⟩ := by
  have hlist : Writes follow ("(" ++ ", ".intercalate ss ++ ")") _ _ := writes_parenthesized h
  have hcall := (writes_name hcallee).append hlist (by
    intro rest _
    rw [Text.bytes_append, Text.bytes_append]
    exact .of_cons rfl)
  simp only [← String.append_assoc] at hcall
  refine hcall.map ?_
  rintro ⟨place', list⟩ ⟨-, hlist⟩
  exact ⟨.call callee place' list, rfl, by simp [tree, Node.inner, Node.unplaced, hlist]⟩

end Expressions

/-! ## Statements -/

section Statements

variable {follow : UInt8 → Bool} {pad : String}

/-- A semicolon and the end of the line. -/
theorem writes_semicolon :
    Writes anyByte ";\n" (fun place : Span => [⟨.mark .semicolon, place⟩]) (fun _ => True) := by
  have hsemicolon : Writes anyByte ";" _ _ := writes_mark (m := .semicolon) (by decide)
  exact hsemicolon.beforeGap scans_newline fun _ _ _ _ => rfl

theorem writesNode_evaluation {s : String} {n : Node} (hpad : Scans anyByte (Text.bytes pad) [])
    (h : WritesNode endsWord s .expression n) :
    WritesNode anyByte (pad ++ s ++ ";\n") .construct n := by
  refine ((h.afterGap hpad).append writes_semicolon fun _ _ => .of_cons rfl).map ?_
  rintro ⟨d, semicolon⟩ ⟨hd, -⟩
  exact ⟨.evaluation d semicolon, rfl, hd⟩

/-- A keyword and a blank. -/
theorem writes_keyword_blank (k : Keyword) :
    Writes anyByte (k.spelling ++ " ") (fun place : Span => [⟨.keyword k, place⟩])
      (fun _ => True) :=
  (writes_keyword k).beforeGap scans_blank fun _ _ => .of_cons rfl

theorem writesNode_definition {target : String} {keyword place : Span}
    (hpad : Scans anyByte (Text.bytes pad) []) (htarget : Vocabulary.lexical.name target) :
    WritesNode anyByte (pad ++ "var " ++ target ++ ";\n") .construct
      (.inner .definition keyword [.leaf .name target place]) := by
  have hvar : Writes anyByte (pad ++ "var ") _ _ := (writes_keyword_blank .var).afterGap hpad
  have hname := hvar.appendAny (writes_name htarget)
  refine (hname.append writes_semicolon fun _ _ => .of_cons rfl).map ?_
  rintro ⟨⟨keyword', place'⟩, semicolon⟩ -
  exact ⟨.definition keyword' target place' semicolon, rfl, rfl⟩

/-- Statements in braces, which are written behind a blank. -/
def bracedBlock (pad body : String) : String :=
  " \x7b\n" ++ body ++ pad ++ "\x7d"

theorem braced_eq (pad header body : String) :
    Node.braced pad header body = header ++ bracedBlock pad body := by
  simp [Node.braced, bracedBlock, String.append_assoc]

theorem nextByte_bracedBlock (hfollow : follow 32 = true) {body : String} {rest : List UInt8} :
    NextByte follow (Text.bytes (bracedBlock pad body) ++ rest) := by
  rw [bracedBlock, Text.bytes_append, Text.bytes_append, Text.bytes_append]
  exact .of_cons hfollow

theorem writesNode_block {body : String} {statements : List Node} {place : Span}
    (hpad : Scans anyByte (Text.bytes pad) [])
    (h : Writes anyByte body (tokens (s := .many .statement))
      fun d => d.tree.map Node.unplaced = statements.map Node.unplaced) :
    WritesNode follow (bracedBlock pad body) .block (.inner .block place statements) := by
  have hmark : Writes anyByte "\x7b" _ _ := writes_mark (m := .openBrace) (by decide)
  have hopen : Writes anyByte " \x7b\n" _ _ :=
    (hmark.beforeGap scans_newline fun _ _ _ _ => rfl).afterGap scans_blank
  have hclose : Writes follow "\x7d" _ _ := writes_mark (m := .closeBrace) (by decide)
  have hbody := (hopen.appendAny h).beforeGap hpad fun _ _ _ _ => rfl
  refine (hbody.appendAny hclose).map ?_
  rintro ⟨⟨opening, d⟩, closing⟩ ⟨⟨-, hd⟩, -⟩
  exact ⟨.block opening d closing, rfl, by simp [tree, Node.inner, Node.unplaced, hd]⟩

/-- A keyword and a condition in parentheses. -/
theorem writes_header (k : Keyword) {s : String} {test : Node}
    (h : WritesNode endsWord s .expression test) :
    Writes anyByte (k.spelling ++ " (" ++ s ++ ")")
      (fun x : Span × Derivation (.one .condition) => ⟨.keyword k, x.1⟩ :: x.2.tokens)
      (fun x => x.2.tree.unplaced = test.unplaced) := by
  have hopen : Writes anyByte "(" _ _ := writes_mark (m := .openParen) (by decide)
  have hclose : Writes anyByte ")" _ _ := writes_mark (m := .closeParen) (by decide)
  have htest := (hopen.appendAny h).append hclose fun _ _ => .of_cons rfl
  have hheader := (writes_keyword_blank k).appendAny htest
  have htext : k.spelling ++ " " ++ ("(" ++ s ++ ")") = k.spelling ++ " (" ++ s ++ ")" := by
    have hsplit : " (" = " " ++ "(" := rfl
    simp only [hsplit, String.append_assoc]
  rw [htext] at hheader
  refine hheader.map ?_
  rintro ⟨keyword, ⟨opening, d⟩, closing⟩ ⟨-, ⟨-, hd⟩, -⟩
  exact ⟨(keyword, .condition opening d closing), rfl, hd⟩

theorem writesNode_loop {s body : String} {test : Node} {statements : List Node}
    {keyword place : Span} (hpad : Scans anyByte (Text.bytes pad) [])
    (htest : WritesNode endsWord s .expression test)
    (hbody : Writes anyByte body (tokens (s := .many .statement))
      fun d => d.tree.map Node.unplaced = statements.map Node.unplaced) :
    WritesNode anyByte (pad ++ Node.braced pad ("while (" ++ s ++ ")") body ++ "\n") .construct
      (.inner .loop keyword [test, .inner .block place statements]) := by
  have hheader : Writes anyByte ("while (" ++ s ++ ")") _ _ := writes_header .loop htest
  have hblock : WritesNode anyByte (bracedBlock pad body) .block (.inner .block place statements) :=
    writesNode_block hpad hbody
  rw [braced_eq]
  have hloop := (hheader.appendAny hblock).afterGap hpad
  refine (hloop.beforeGap scans_newline fun _ _ _ _ => rfl).map ?_
  rintro ⟨⟨keyword', test'⟩, body'⟩ ⟨htest', hbody'⟩
  refine ⟨.loop keyword' test' body', rfl, ?_⟩
  simp [tree, Node.inner, Node.unplaced, htest', hbody']

/-- The alternative of a conditional, if it has one. -/
theorem writes_alternative {body : String} {statements : List Node} {keyword place : Span}
    (hpad : Scans anyByte (Text.bytes pad) [])
    (hbody : Writes anyByte body (tokens (s := .many .statement))
      fun d => d.tree.map Node.unplaced = statements.map Node.unplaced) :
    Writes anyByte (Node.braced pad " else" body) (tokens (s := .alternative))
      (fun d => d.tree.map Node.unplaced =
        [(Node.inner .alternative keyword [.inner .block place statements]).unplaced]) := by
  have helse : Writes endsWord " else" _ _ := (writes_keyword .alternative).afterGap scans_blank
  have hblock : WritesNode anyByte (bracedBlock pad body) .block (.inner .block place statements) :=
    writesNode_block hpad hbody
  rw [braced_eq]
  refine (helse.append hblock fun _ _ => nextByte_bracedBlock rfl).map ?_
  rintro ⟨keyword', body'⟩ ⟨-, hbody'⟩
  refine ⟨.alternative keyword' body', rfl, ?_⟩
  simp [tree, Node.inner, Node.unplaced, hbody']

/-- A conditional, whose alternative is some text. -/
theorem writesNode_conditional {s body alternative : String} {test : Node}
    {statements otherwise : List Node} {keyword place : Span}
    (hpad : Scans anyByte (Text.bytes pad) []) (htest : WritesNode endsWord s .expression test)
    (hbody : Writes anyByte body (tokens (s := .many .statement))
      fun d => d.tree.map Node.unplaced = statements.map Node.unplaced)
    (halternative : Writes anyByte alternative (tokens (s := .alternative))
      fun d => d.tree.map Node.unplaced = otherwise.map Node.unplaced) :
    WritesNode anyByte
      (pad ++ Node.braced pad ("if (" ++ s ++ ")") body ++ alternative ++ "\n") .construct
      (.inner .conditional keyword (test :: .inner .block place statements :: otherwise)) := by
  have hheader : Writes anyByte ("if (" ++ s ++ ")") _ _ := writes_header .conditional htest
  have hblock : WritesNode anyByte (bracedBlock pad body) .block (.inner .block place statements) :=
    writesNode_block hpad hbody
  rw [braced_eq]
  have hbranches := ((hheader.appendAny hblock).afterGap hpad).appendAny halternative
  refine (hbranches.beforeGap scans_newline fun _ _ _ _ => rfl).map ?_
  rintro ⟨⟨⟨keyword', test'⟩, body'⟩, otherwise'⟩ ⟨⟨htest', hbody'⟩, hotherwise'⟩
  refine ⟨.conditional keyword' test' body' otherwise', by simp [tokens], ?_⟩
  simp [tree, Node.inner, Node.unplaced, htest', hbody', hotherwise']

theorem writesNode_function {spelling body : String} {parameters statements : List Node}
    {keyword opening place : Span} (hpad : Scans anyByte (Text.bytes pad) [])
    (hname : Vocabulary.lexical.name spelling)
    (hparameters : ∀ p ∈ parameters, WritesNode endsWord p.text .parameter p)
    (hbody : Writes anyByte body (tokens (s := .many .statement))
      fun d => d.tree.map Node.unplaced = statements.map Node.unplaced) :
    WritesNode anyByte
      (pad ++ Node.braced pad
        (Node.functionHeader spelling (.inner .parameters opening parameters)) body ++ "\n")
      .construct
      ⟨.function, spelling, keyword,
        [.inner .parameters opening parameters, .inner .block place statements]⟩ := by
  have hlist : Writes anyByte
      ("(" ++ ", ".intercalate (parameters.map Node.text) ++ ")") _ _ :=
    writes_parenthesized (List.forall₂_map_right_iff.2 (List.forall₂_same.2 hparameters))
  have hcall := (writes_name hname).append hlist (by
    intro rest _
    rw [Text.bytes_append, Text.bytes_append]
    exact .of_cons rfl)
  have hheader := (writes_keyword_blank .function).appendAny hcall
  have hblock : WritesNode anyByte (bracedBlock pad body) .block (.inner .block place statements) :=
    writesNode_block hpad hbody
  have hfunction := (hheader.appendAny hblock).afterGap hpad
  have htext : Keyword.function.spelling ++ " " ++
      (spelling ++ ("(" ++ ", ".intercalate (parameters.map Node.text) ++ ")")) =
      Node.functionHeader spelling (.inner .parameters opening parameters) := by
    have hsplit : "function " = Keyword.function.spelling ++ " " := rfl
    simp only [Node.functionHeader, Node.inner, hsplit, String.append_assoc]
  rw [htext] at hfunction
  rw [braced_eq]
  refine (hfunction.beforeGap scans_newline fun _ _ _ _ => rfl).map ?_
  rintro ⟨⟨keyword', place', list⟩, body'⟩ ⟨⟨-, -, hlist'⟩, hbody'⟩
  refine ⟨.function keyword' spelling place' list body', by simp [tokens], ?_⟩
  simp [tree, Node.inner, Node.unplaced, hlist', hbody']

end Statements

end ScopeLang
