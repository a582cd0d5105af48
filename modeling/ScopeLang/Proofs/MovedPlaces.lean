-- SUMMARY: Tokens, derivations and trees at other places, and texts put after one another.
import ScopeLang.Proofs.ParseProgram
import ScopeLang.Proofs.Places

/-! # Moved places

A text that is moved within a larger one has the same tokens at other places. The
derivation of the moved tokens is the moved derivation, and it stands for the moved
tree. Nothing is said here of how the places change: `f` maps the old ones to the
new ones.

Statements can be put after statements, so the derivations of two programs make one
of their tokens put together.
-/

namespace ScopeLang

variable {f : Span → Span}

/-! ## Tokens and trees -/

/-- The token at another place. -/
def Token.moved (f : Span → Span) (t : Token) : Token :=
  { t with span := f t.span }

namespace Node

mutual

/-- The tree at another place. -/
def moved (f : Span → Span) : Node → Node
  | ⟨tag, text, span, children⟩ => ⟨tag, text, f span, movedAll f children⟩

def movedAll (f : Span → Span) : List Node → List Node
  | [] => []
  | n :: ns => moved f n :: movedAll f ns

end

@[simp] theorem movedAll_eq_map (ns : List Node) : movedAll f ns = ns.map (moved f) := by
  induction ns with
  | nil => rfl
  | cons n ns ih => simp only [movedAll, ih, List.map_cons]

@[simp] theorem moved_mk (tag : Tag) (text : String) (span : Span) (children : List Node) :
    moved f ⟨tag, text, span, children⟩ = ⟨tag, text, f span, children.map (moved f)⟩ := by
  simp only [moved, movedAll_eq_map]

@[simp] theorem tag_moved (n : Node) : (n.moved f).tag = n.tag := by
  cases n
  rfl

@[simp] theorem children_moved (n : Node) : (n.moved f).children = n.children.map (moved f) := by
  cases n
  exact movedAll_eq_map _

@[simp] theorem moved_leaf (tag : Tag) (text : String) (span : Span) :
    moved f (leaf tag text span) = leaf tag text (f span) :=
  moved_mk tag text span []

@[simp] theorem moved_inner (tag : Tag) (span : Span) (children : List Node) :
    moved f (inner tag span children) = inner tag (f span) (children.map (moved f)) :=
  moved_mk tag "" span children

mutual

/-- A tree is the same at another place but for its places. -/
@[simp] theorem unplaced_moved : ∀ n : Node, (n.moved f).unplaced = n.unplaced
  | ⟨_, _, _, children⟩ => by
    simp only [moved, unplaced, unplacedAll_movedAll children]

theorem unplacedAll_movedAll : ∀ ns : List Node, unplacedAll (movedAll f ns) = unplacedAll ns
  | [] => rfl
  | n :: ns => by
    simp only [movedAll, unplacedAll, unplaced_moved n, unplacedAll_movedAll ns]

end

end Node

namespace Grammar

/-! ## Derivations -/

namespace Derivation

/-- The derivation with its tokens at other places. -/
def moved (f : Span → Span) : {s : Symbol} → Derivation s → Derivation s
  | _, .program body => .program (body.moved f)
  | _, .statement inside => .statement (inside.moved f)
  | _, .definition keyword target place semicolon =>
    .definition (f keyword) target (f place) (f semicolon)
  | _, .conditional keyword test body otherwise =>
    .conditional (f keyword) (test.moved f) (body.moved f) (otherwise.moved f)
  | _, .loop keyword test body => .loop (f keyword) (test.moved f) (body.moved f)
  | _, .function keyword spelling place parameters body =>
    .function (f keyword) spelling (f place) (parameters.moved f) (body.moved f)
  | _, .evaluation e semicolon => .evaluation (e.moved f) (f semicolon)
  | _, .block opening body closing => .block (f opening) (body.moved f) (f closing)
  | _, .noAlternative => .noAlternative
  | _, .alternative keyword body => .alternative (f keyword) (body.moved f)
  | _, .condition opening inside closing => .condition (f opening) (inside.moved f) (f closing)
  | _, .assignment target place equals value =>
    .assignment target (f place) (f equals) (value.moved f)
  | _, .logical inside => .logical (inside.moved f)
  | _, .level l first rest => .level l (first.moved f) (rest.moved f)
  | _, .noOperation l => .noOperation l
  | _, .onlyOperation l once op belongs place right =>
    .onlyOperation l once op belongs (f place) (right.moved f)
  | _, .moreOperations l often op belongs place right rest =>
    .moreOperations l often op belongs (f place) (right.moved f) (rest.moved f)
  | _, .number digits place => .number digits (f place)
  | _, .text content place => .text content (f place)
  | _, .name spelling place => .name spelling (f place)
  | _, .call callee place arguments => .call callee (f place) (arguments.moved f)
  | _, .group opening inside closing => .group (f opening) (inside.moved f) (f closing)
  | _, .parameter spelling place => .parameter spelling (f place)
  | _, .last p first => .last p (first.moved f)
  | _, .more p first rest => .more p (first.moved f) (rest.moved f)
  | _, .lastItem p first => .lastItem p (first.moved f)
  | _, .moreItems p first comma rest => .moreItems p (first.moved f) (f comma) (rest.moved f)
  | _, .noItems p opening closing => .noItems p (f opening) (f closing)
  | _, .items p opening list closing => .items p (f opening) (list.moved f) (f closing)

variable {s : Symbol}

theorem tokens_moved (d : Derivation s) : (d.moved f).tokens = d.tokens.map (Token.moved f) := by
  induction d with simp [moved, tokens, Token.moved, *]

theorem place_moved (d : Derivation s) (hs : s.nullable = false) :
    (d.moved f).place = f d.place := by
  rcases d.exists_head hs with ⟨t, ts, ht, -⟩
  simp only [place, tokens_moved, ht, List.map_cons, List.head?_cons, Option.map_some,
    Option.getD_some, Token.moved]

end Derivation

/-- What a symbol stands for, here and at other places. Operations on a moved operand yield a
moved tree. -/
def Symbol.Moved (f : Span → Span) : (s : Symbol) → s.Value → s.Value → Prop
  | .one _, n, n' => n' = n.moved f
  | .many _, ns, ns' | .separated _, ns, ns' | .alternative, ns, ns' => ns' = ns.map (Node.moved f)
  | .parenthesized _, x, x' => x' = (x.1.map (Node.moved f), f x.2)
  | .operations _, g, g' => ∀ left : Node, g' (left.moved f) = (g left).moved f

namespace Derivation

/-- A derivation at another place stands for the tree at that place. -/
theorem moved_tree {s : Symbol} (d : Derivation s) : s.Moved f d.tree (d.moved f).tree := by
  induction d with
  | program body ih =>
      have hplace : (body.moved f).place = f body.place := body.place_moved rfl
      simp_all [Symbol.Moved, moved, tree]
  | statement inside ih =>
      have hplace : (inside.moved f).place = f inside.place := inside.place_moved rfl
      simp_all [Symbol.Moved, moved, tree]
  | definition | noAlternative | number | text | name | parameter | noItems =>
      simp [Symbol.Moved, moved, tree]
  | conditional | loop | function | evaluation | block | alternative | condition | assignment
  | logical | level | call | group | last | more | lastItem | moreItems | items =>
      simp_all [Symbol.Moved, moved, tree]
  | noOperation | onlyOperation =>
      intro left
      simp_all [Symbol.Moved, moved, tree]
  | moreOperations l often op belongs place right rest ihright ihrest =>
      intro left
      -- The first operation is the operand of the others.
      have hfirst := ihrest (.inner (.binary op) place [left, right.tree])
      simp_all [Symbol.Moved, moved, tree]

/-! ## Programs put together -/

/-- Items and then more of them. -/
def append {p : Phrase} : Derivation (.many p) → Derivation (.many p) → Derivation (.many p)
  | .last _ first, d => .more p first d
  | .more _ first rest, d => .more p first (rest.append d)

variable {p : Phrase}

theorem tokens_append (d d' : Derivation (.many p)) :
    (d.append d').tokens = d.tokens ++ d'.tokens := by
  fun_induction append d d' with
  | case1 => rfl
  | case2 => simp [tokens, *]

theorem tree_append (d d' : Derivation (.many p)) :
    (d.append d').tree = d.tree ++ d'.tree := by
  fun_induction append d d' with
  | case1 => rfl
  | case2 => simp [tree, *]

theorem place_append (d d' : Derivation (.many p)) : (d.append d').place = d.place := by
  rcases d.exists_head rfl with ⟨t, ts, ht, -⟩
  simp only [place, tokens_append, ht, List.cons_append, List.head?_cons]

theorem tree_ne_nil (d : Derivation (.many p)) : d.tree ≠ [] := by
  cases d with
  | last | more => simp [tree]

end Derivation

end Grammar

end ScopeLang
