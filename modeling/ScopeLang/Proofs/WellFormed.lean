-- SUMMARY: The trees that the grammar builds: which nodes stand where, and which texts they have.
import ScopeLang.Proofs.Grammar

/-! # Well-formed trees

`WellFormed` says which trees stand for a program and its parts, as the table in
`ScopeLang/Tree/Basic.lean` lists them: what children a node has and what part
each of them plays. Which texts a leaf may have depends on where the tokens come
from, so the vocabulary is a parameter. The trees of derivations over a
vocabulary are well formed.
-/

namespace ScopeLang

/-! ## Vocabularies -/

/-- The texts that integer literals and names may have. -/
structure Vocabulary where
  number : String → Prop
  name : String → Prop

namespace Vocabulary

/-- Any texts at all. -/
def unrestricted : Vocabulary := ⟨fun _ => True, fun _ => True⟩

/-- The lexeme has a text of the vocabulary, if it is one that has a text. -/
def Admits (v : Vocabulary) : Lexeme → Prop
  | .number digits => v.number digits
  | .name spelling => v.name spelling
  | _ => True

theorem admits_unrestricted (l : Lexeme) : unrestricted.Admits l := by
  unfold Admits
  split <;> trivial

end Vocabulary

/-! ## Trees -/

/-- The parts that a node can play in a program. -/
inductive Role
  | expression
  | parameter
  /-- What a statement consists of. -/
  | construct
  | alternative
  | statement
  | block
  | program

/-- The node is one that the grammar builds for its part in a program. -/
inductive WellFormed (v : Vocabulary) : Role → Node → Prop
  | number {digits : String} {place : Span} (admitted : v.number digits) :
      WellFormed v .expression (.leaf .number digits place)
  | text {content : String} {place : Span} : WellFormed v .expression (.leaf .text content place)
  | name {spelling : String} {place : Span} (admitted : v.name spelling) :
      WellFormed v .expression (.leaf .name spelling place)
  | binary {op : Operator} {place : Span} {left right : Node}
      (hleft : WellFormed v .expression left) (hright : WellFormed v .expression right) :
      WellFormed v .expression (.inner (.binary op) place [left, right])
  | assignment {target : String} {place equals : Span} {value : Node}
      (admitted : v.name target) (hvalue : WellFormed v .expression value) :
      WellFormed v .expression (.inner .assignment equals [.leaf .name target place, value])
  | call {callee : String} {place opening : Span} {arguments : List Node}
      (admitted : v.name callee) (harguments : ∀ a ∈ arguments, WellFormed v .expression a) :
      WellFormed v .expression ⟨.call, callee, place, [.inner .arguments opening arguments]⟩
  | parameter {spelling : String} {place : Span} (admitted : v.name spelling) :
      WellFormed v .parameter (.leaf .name spelling place)
  | evaluation {e : Node} (he : WellFormed v .expression e) : WellFormed v .construct e
  | definition {target : String} {place keyword : Span} (admitted : v.name target) :
      WellFormed v .construct (.inner .definition keyword [.leaf .name target place])
  | conditional {keyword : Span} {test body : Node} (htest : WellFormed v .expression test)
      (hbody : WellFormed v .block body) :
      WellFormed v .construct (.inner .conditional keyword [test, body])
  | conditionalElse {keyword : Span} {test body otherwise : Node}
      (htest : WellFormed v .expression test) (hbody : WellFormed v .block body)
      (hotherwise : WellFormed v .alternative otherwise) :
      WellFormed v .construct (.inner .conditional keyword [test, body, otherwise])
  | loop {keyword : Span} {test body : Node} (htest : WellFormed v .expression test)
      (hbody : WellFormed v .block body) :
      WellFormed v .construct (.inner .loop keyword [test, body])
  | function {spelling : String} {keyword opening : Span} {parameters : List Node} {body : Node}
      (admitted : v.name spelling) (hparameters : ∀ p ∈ parameters, WellFormed v .parameter p)
      (hbody : WellFormed v .block body) :
      WellFormed v .construct
        ⟨.function, spelling, keyword, [.inner .parameters opening parameters, body]⟩
  | alternative {place : Span} {body : Node} (hbody : WellFormed v .block body) :
      WellFormed v .alternative (.inner .alternative place [body])
  | statement {place : Span} {inside : Node} (hinside : WellFormed v .construct inside) :
      WellFormed v .statement (.inner .statement place [inside])
  | block {opening : Span} {statements : List Node} (some : statements ≠ [])
      (hstatements : ∀ s ∈ statements, WellFormed v .statement s) :
      WellFormed v .block (.inner .block opening statements)
  | program {place : Span} {statements : List Node} (some : statements ≠ [])
      (hstatements : ∀ s ∈ statements, WellFormed v .statement s) :
      WellFormed v .program (.inner .program place statements)

/-! ## Trees of derivations -/

namespace Grammar

/-- The part that a phrase plays. -/
def Phrase.role : Phrase → Role
  | .program => .program
  | .statement => .statement
  | .construct => .construct
  | .block => .block
  | .condition | .expression | .level _ | .primary => .expression
  | .parameter => .parameter

@[simp] theorem Level.role_operand (l : Level) : l.operand.role = .expression := by
  cases l <;> rfl

/-- What a symbol stands for is well formed. Operations are if they turn a well-formed
operand into a well-formed expression. -/
def Symbol.WellFormed (v : Vocabulary) : (s : Symbol) → s.Value → Prop
  | .one p, n => ScopeLang.WellFormed v p.role n
  | .many p, ns | .separated p, ns => ns ≠ [] ∧ ∀ n ∈ ns, ScopeLang.WellFormed v p.role n
  | .parenthesized p, x => ∀ n ∈ x.1, ScopeLang.WellFormed v p.role n
  | .alternative, ns => ns = [] ∨ ∃ n, ns = [n] ∧ ScopeLang.WellFormed v .alternative n
  | .operations _, f => ∀ left, ScopeLang.WellFormed v .expression left →
      ScopeLang.WellFormed v .expression (f left)

/-- The tree of a derivation is well formed over a vocabulary that has its texts. -/
theorem Derivation.wellFormed_tree {v : Vocabulary} {s : Symbol} (d : Derivation s)
    (h : ∀ t ∈ d.tokens, v.Admits t.lexeme) : s.WellFormed v d.tree := by
  induction d with
  | program body ih =>
      obtain ⟨hsome, hall⟩ := ih h
      exact .program hsome hall
  | statement inside ih => exact .statement (ih h)
  | definition keyword target place semicolon =>
      have hname : v.name target := h ⟨.name target, place⟩ (by simp [tokens])
      exact .definition hname
  | conditional keyword test body otherwise ihtest ihbody ihotherwise =>
      simp only [tokens, List.mem_cons, List.mem_append] at h
      have htest := ihtest fun t ht => h t (.inr (.inl ht))
      have hbody := ihbody fun t ht => h t (.inr (.inr (.inl ht)))
      have hotherwise := ihotherwise fun t ht => h t (.inr (.inr (.inr ht)))
      rw [tree]
      obtain hnone | ⟨n, hsome, hn⟩ := hotherwise
      · rw [hnone]
        exact .conditional htest hbody
      · rw [hsome]
        exact .conditionalElse htest hbody hn
  | loop keyword test body ihtest ihbody =>
      simp only [tokens, List.mem_cons, List.mem_append] at h
      exact .loop (ihtest fun t ht => h t (.inr (.inl ht)))
        (ihbody fun t ht => h t (.inr (.inr ht)))
  | function keyword spelling place parameters body ihparameters ihbody =>
      simp only [tokens, List.mem_cons, List.mem_append] at h
      have hname : v.name spelling := h ⟨.name spelling, place⟩ (.inr (.inl rfl))
      exact .function hname (ihparameters fun t ht => h t (.inr (.inr (.inl ht))))
        (ihbody fun t ht => h t (.inr (.inr (.inr ht))))
  | evaluation e semicolon ih =>
      exact .evaluation (ih fun t ht => h t (List.mem_append_left _ ht))
  | block opening body closing ih =>
      simp only [tokens, List.mem_cons, List.mem_append] at h
      obtain ⟨hsome, hall⟩ := ih fun t ht => h t (.inr (.inl ht))
      exact .block hsome hall
  | noAlternative => exact .inl rfl
  | alternative keyword body ih =>
      have hbody := ih fun t ht => h t (List.mem_cons_of_mem _ ht)
      exact .inr ⟨_, rfl, .alternative hbody⟩
  | condition opening inside closing ih | group opening inside closing ih =>
      simp only [tokens, List.mem_cons, List.mem_append] at h
      exact ih fun t ht => h t (.inr (.inl ht))
  | assignment target place equals value ih =>
      simp only [tokens, List.mem_cons] at h
      have hname : v.name target := h ⟨.name target, place⟩ (.inl rfl)
      exact .assignment hname (ih fun t ht => h t (.inr (.inr ht)))
  | logical inside ih => exact ih h
  | level l first rest ihfirst ihrest =>
      simp only [tokens, List.mem_append] at h
      have hfirst := ihfirst fun t ht => h t (.inl ht)
      rw [Symbol.WellFormed, Level.role_operand] at hfirst
      exact ihrest (fun t ht => h t (.inr ht)) _ hfirst
  | noOperation l => exact fun _ hleft => hleft
  | onlyOperation l once op belongs place right ih =>
      have hright := ih fun t ht => h t (List.mem_cons_of_mem _ ht)
      rw [Symbol.WellFormed, Level.role_operand] at hright
      exact fun left hleft => .binary hleft hright
  | moreOperations l often op belongs place right rest ihright ihrest =>
      simp only [tokens, List.mem_cons, List.mem_append] at h
      have hright := ihright fun t ht => h t (.inr (.inl ht))
      rw [Symbol.WellFormed, Level.role_operand] at hright
      exact fun left hleft => ihrest (fun t ht => h t (.inr (.inr ht))) _ (.binary hleft hright)
  | number digits place =>
      have hdigits : v.number digits := h ⟨.number digits, place⟩ (by simp [tokens])
      exact .number hdigits
  | text content place => exact .text
  | name spelling place =>
      have hname : v.name spelling := h ⟨.name spelling, place⟩ (by simp [tokens])
      exact .name hname
  | call callee place arguments ih =>
      simp only [tokens, List.mem_cons] at h
      have hname : v.name callee := h ⟨.name callee, place⟩ (.inl rfl)
      exact .call hname (ih fun t ht => h t (.inr ht))
  | parameter spelling place =>
      have hname : v.name spelling := h ⟨.name spelling, place⟩ (by simp [tokens])
      exact .parameter hname
  | last p first ih | lastItem p first ih =>
      refine ⟨by simp [tree], ?_⟩
      intro n hn
      rw [tree, List.mem_singleton] at hn
      subst hn
      exact ih h
  | more p first rest ihfirst ihrest =>
      simp only [tokens, List.mem_append] at h
      refine ⟨by simp [tree], ?_⟩
      intro n hn
      rw [tree, List.mem_cons] at hn
      obtain rfl | hn := hn
      · exact ihfirst fun t ht => h t (.inl ht)
      · exact (ihrest fun t ht => h t (.inr ht)).2 n hn
  | moreItems p first comma rest ihfirst ihrest =>
      simp only [tokens, List.mem_append, List.mem_cons] at h
      refine ⟨by simp [tree], ?_⟩
      intro n hn
      rw [tree, List.mem_cons] at hn
      obtain rfl | hn := hn
      · exact ihfirst fun t ht => h t (.inl ht)
      · exact (ihrest fun t ht => h t (.inr (.inr ht))).2 n hn
  | noItems p opening closing =>
      intro n hn
      cases hn
  | items p opening list closing ih =>
      simp only [tokens, List.mem_cons, List.mem_append] at h
      exact (ih fun t ht => h t (.inr (.inl ht))).2

end Grammar

end ScopeLang
