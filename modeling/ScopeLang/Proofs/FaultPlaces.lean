-- SUMMARY: Faults of a run are found at the node that is to blame for them, and so at a token.
import ScopeLang.Proofs.ShapeSafety

/-! # Places of faults

A fault that ends a run has the place of a node of the program, and that node is
one that the code of the fault can be blamed on: a division for a division by
zero, an operand or a condition for a value that is no integer, and so on.
`Code.Blames` is the list.

The run is coupled with itself once more. Besides conforming to the table of
children, the nodes it comes to are nodes of the program: the bodies of
functions too, whichever call created them. That every node stands at a token is
a matter of the grammar alone.
-/

namespace ScopeLang

/-! ## Nodes of a tree -/

namespace Node

variable {root n c : Node} {places : List Span}

/-- Some path leads from the root to the node. -/
def Contains (root n : Node) : Prop :=
  ∃ path, root.at? path = some n

theorem contains_self (root : Node) : root.Contains root :=
  ⟨[], rfl⟩

theorem at?_append {path : List Nat} (h : root.at? path = some n) (rest : List Nat) :
    root.at? (path ++ rest) = n.at? rest := by
  induction path generalizing root with
  | nil =>
      cases h
      rfl
  | cons i path ih =>
      rw [at?] at h
      rcases Option.bind_eq_some_iff.1 h with ⟨child, hchild, h⟩
      rw [List.cons_append, at?, hchild]
      exact ih h

theorem Contains.trans (h : root.Contains n) (h' : n.Contains c) : root.Contains c := by
  rcases h with ⟨path, hpath⟩
  rcases h' with ⟨rest, hrest⟩
  exact ⟨path ++ rest, (at?_append hpath rest).trans hrest⟩

theorem Contains.getElem? (h : root.Contains n) {i : Nat} (hc : n.children[i]? = some c) :
    root.Contains c := by
  apply h.trans
  refine ⟨[i], ?_⟩
  rw [at?, hc]
  rfl

theorem Contains.child (h : root.Contains n) (hc : c ∈ n.children) : root.Contains c := by
  rcases List.getElem?_of_mem hc with ⟨i, hi⟩
  exact h.getElem? hi

/-- A part of a tree that conforms to the table conforms, too. -/
theorem Conforms.contained (h : root.Conforms) (hn : root.Contains n) : n.Conforms := by
  rcases hn with ⟨path, hpath⟩
  intro rest p hp
  exact h (path ++ rest) p ((at?_append hpath rest).trans hp)

/-- Every node of the tree stands at one of the places. -/
def PlacedIn (places : List Span) (n : Node) : Prop :=
  ∀ p, n.Contains p → p.span ∈ places

theorem PlacedIn.of_children (hspan : n.span ∈ places)
    (hchildren : ∀ c ∈ n.children, c.PlacedIn places) : n.PlacedIn places := by
  rintro p ⟨path, hp⟩
  cases path with
  | nil =>
      cases hp
      exact hspan
  | cons i path =>
      rw [at?] at hp
      rcases Option.bind_eq_some_iff.1 hp with ⟨c, hc, hp⟩
      exact hchildren c (List.mem_of_getElem? hc) p ⟨path, hp⟩

theorem PlacedIn.leaf {tag : Tag} {text : String} {place : Span} (h : place ∈ places) :
    (Node.leaf tag text place).PlacedIn places :=
  .of_children h nofun

end Node

/-! ## Nodes stand at tokens -/

namespace Grammar

variable {places : List Span}

/-- What a symbol stands for is placed. Operations are if they keep it so. -/
def Symbol.PlacedIn (places : List Span) : (s : Symbol) → s.Value → Prop
  | .one _, n => n.PlacedIn places
  | .many _, ns | .separated _, ns | .alternative, ns => ∀ n ∈ ns, n.PlacedIn places
  | .parenthesized _, x => (∀ n ∈ x.1, n.PlacedIn places) ∧ x.2 ∈ places
  | .operations _, f => ∀ left, left.PlacedIn places → (f left).PlacedIn places

theorem Derivation.place_mem {s : Symbol} (d : Derivation s) (hs : s.nullable = false)
    (h : ∀ t ∈ d.tokens, t.span ∈ places) : d.place ∈ places := by
  rcases d.exists_head hs with ⟨t, ts, ht, -⟩
  have hplace : d.place = t.span := by
    unfold Derivation.place
    rw [ht]
    rfl
  rw [hplace]
  apply h
  rw [ht]
  exact List.mem_cons_self

/-- Every node of the tree of a derivation stands at one of its tokens. -/
theorem Derivation.placedIn_tree {s : Symbol} (d : Derivation s)
    (h : ∀ t ∈ d.tokens, t.span ∈ places) : s.PlacedIn places d.tree := by
  induction d with
  | program body ih => exact .of_children (body.place_mem rfl h) (ih h)
  | statement inside ih =>
      exact .of_children (inside.place_mem rfl h) (List.forall_mem_singleton.2 (ih h))
  | definition keyword target place semicolon =>
      simp only [tokens, List.forall_mem_cons] at h
      exact .of_children h.1 (List.forall_mem_singleton.2 (.leaf h.2.1))
  | conditional keyword test body otherwise ihtest ihbody ihotherwise =>
      simp only [tokens, List.forall_mem_cons, List.forall_mem_append] at h
      apply Node.PlacedIn.of_children h.1
      refine List.forall_mem_cons.2 ⟨ihtest h.2.1, ?_⟩
      exact List.forall_mem_cons.2 ⟨ihbody h.2.2.1, ihotherwise h.2.2.2⟩
  | loop keyword test body ihtest ihbody =>
      simp only [tokens, List.forall_mem_cons, List.forall_mem_append] at h
      apply Node.PlacedIn.of_children h.1
      exact List.forall_mem_cons.2 ⟨ihtest h.2.1, List.forall_mem_singleton.2 (ihbody h.2.2)⟩
  | function keyword spelling place parameters body ihparameters ihbody =>
      simp only [tokens, List.forall_mem_cons, List.forall_mem_append] at h
      have hparameters := ihparameters h.2.2.1
      apply Node.PlacedIn.of_children h.1
      refine List.forall_mem_cons.2 ⟨?_, List.forall_mem_singleton.2 (ihbody h.2.2.2)⟩
      exact .of_children hparameters.2 hparameters.1
  | evaluation e semicolon ih =>
      simp only [tokens, List.forall_mem_append] at h
      exact ih h.1
  | block opening body closing ih =>
      simp only [tokens, List.forall_mem_cons, List.forall_mem_append] at h
      exact .of_children h.1 (ih h.2.1)
  | noAlternative => exact List.forall_mem_nil _
  | alternative keyword body ih =>
      simp only [tokens, List.forall_mem_cons] at h
      have hbody : ∀ c ∈ [body.tree], c.PlacedIn places := List.forall_mem_singleton.2 (ih h.2)
      exact List.forall_mem_singleton.2 (.of_children h.1 hbody)
  | condition opening inside closing ih | group opening inside closing ih =>
      simp only [tokens, List.forall_mem_cons, List.forall_mem_append] at h
      exact ih h.2.1
  | assignment target place equals value ih =>
      simp only [tokens, List.forall_mem_cons] at h
      apply Node.PlacedIn.of_children h.2.1
      exact List.forall_mem_cons.2 ⟨.leaf h.1, List.forall_mem_singleton.2 (ih h.2.2)⟩
  | logical inside ih => exact ih h
  | level l first rest ihfirst ihrest =>
      simp only [tokens, List.forall_mem_append] at h
      exact ihrest h.2 _ (ihfirst h.1)
  | noOperation l => exact fun _ hleft => hleft
  | onlyOperation l once op belongs place right ih =>
      simp only [tokens, List.forall_mem_cons] at h
      intro left hleft
      apply Node.PlacedIn.of_children h.1
      exact List.forall_mem_cons.2 ⟨hleft, List.forall_mem_singleton.2 (ih h.2)⟩
  | moreOperations l often op belongs place right rest ihright ihrest =>
      simp only [tokens, List.forall_mem_cons, List.forall_mem_append] at h
      intro left hleft
      apply ihrest h.2.2
      apply Node.PlacedIn.of_children h.1
      exact List.forall_mem_cons.2 ⟨hleft, List.forall_mem_singleton.2 (ihright h.2.1)⟩
  | number digits place | text content place | name spelling place | parameter spelling place =>
      simp only [tokens, List.forall_mem_singleton] at h
      exact .leaf h
  | call callee place arguments ih =>
      simp only [tokens, List.forall_mem_cons] at h
      have harguments := ih h.2
      apply Node.PlacedIn.of_children h.1
      exact List.forall_mem_singleton.2 (.of_children harguments.2 harguments.1)
  | last p first ih | lastItem p first ih => exact List.forall_mem_singleton.2 (ih h)
  | more p first rest ihfirst ihrest =>
      simp only [tokens, List.forall_mem_append] at h
      exact List.forall_mem_cons.2 ⟨ihfirst h.1, ihrest h.2⟩
  | moreItems p first comma rest ihfirst ihrest =>
      simp only [tokens, List.forall_mem_append, List.forall_mem_cons] at h
      exact List.forall_mem_cons.2 ⟨ihfirst h.1, ihrest h.2.2⟩
  | noItems p opening closing =>
      simp only [tokens, List.forall_mem_cons] at h
      exact ⟨List.forall_mem_nil _, h.1⟩
  | items p opening list closing ih =>
      simp only [tokens, List.forall_mem_cons, List.forall_mem_append] at h
      exact ⟨ih h.2.1, h.1⟩

end Grammar

/-- Every node of a parsed tree stands at a token of the text, and not at its end. -/
theorem placedIn_of_parse {source : String} {root : Node} (h : parse source = .ok root) :
    ∃ tokens, tokenize source = .ok tokens ∧
      root.PlacedIn ((tokens.filter fun t => !t.isEnd).map Token.span) := by
  unfold parse at h
  rcases SymbolTable.exists_of_bind_eq_ok h with ⟨tokens, htokenize, hparse⟩
  rcases exists_tokens_of_scan htokenize with ⟨ts, stop, rfl, hstop, hlexical⟩
  have hfree : Grammar.EndFree ts := fun x hx => (hlexical x hx).1
  rcases (Grammar.parseTokens_eq_ok_iff hfree (Grammar.ofTokens_append_end ts hstop)).1 hparse
    with ⟨d, rfl, rfl⟩
  refine ⟨_, htokenize, d.placedIn_tree fun t ht => List.mem_map_of_mem ?_⟩
  apply List.mem_filter.2
  constructor
  · exact List.mem_append_left _ ht
  · simpa [Token.isEnd] using d.lexeme_ne_endOfInput ht

/-! ## Who is to blame -/

/-- The node is an operand of an operator of the tree, or the condition of one of its
conditionals and loops. -/
def Node.IsTested (root n : Node) : Prop :=
  ∃ parent i, root.Contains parent ∧ parent.children[i]? = some n ∧
    ((i = 0 ∨ i = 1) ∧ (∃ op, parent.tag = .binary op) ∨
      i = 0 ∧ (parent.tag = .conditional ∨ parent.tag = .loop))

/-- The nodes of a tree that a fault of evaluation is blamed on. -/
def Code.Blames (root n : Node) : Code → Prop
  | .divisionByZero => n.tag = .binary (.arithmetic .div)
  | .outOfRange => n.tag = .number ∨ ∃ op, n.tag = .binary (.arithmetic op)
  | .nonNumeric => root.IsTested n
  | .argumentCount | .notCallable | .console => n.tag = .call
  | .unassignedName | .undefinedName => n.tag = .name ∨ n.tag = .call
  | _ => False

/-- The fault is at the place of a node that is to blame for it. -/
def Fault.IsBlamedIn (root : Node) (f : Fault) : Prop :=
  ∃ n, root.Contains n ∧ n.span = f.span ∧ f.code.Blames root n

section Blame

variable {root n : Node} {cause : Cause}

theorem Node.blames_of_raises (htag : n.tag.isEvaluable = true)
    (h : n.tag.raises cause = true) : cause.code.Blames root n := by
  unfold Tag.raises at h
  split at h
  case h_1 hnumber => exact .inl hnumber
  case h_2 hname | h_3 hname => exact .inl hname
  case h_4 hdivision => exact hdivision
  case h_5 op _ _ _ harithmetic => exact .inr ⟨op, harithmetic⟩
  case h_6 hcall | h_7 hcall => exact .inr hcall
  case h_8 hcall | h_9 hcall | h_10 hcall | h_11 hcall | h_12 hcall | h_13 hcall => exact hcall
  case h_14 hlist | h_15 hlist =>
    rw [hlist] at htag
    cases htag
  case h_16 => cases h

theorem Node.blames_of_raisesAt {c : Node} {i : Nat} (hn : root.Contains n)
    (hc : n.children[i]? = some c) (h : n.tag.raisesAt i cause = true) :
    cause.code.Blames root c := by
  unfold Tag.raisesAt at h
  split at h
  next op _ hop => exact ⟨n, 0, hn, hc, .inl ⟨.inl rfl, op, hop⟩⟩
  next op _ hop => exact ⟨n, 1, hn, hc, .inl ⟨.inr rfl, op, hop⟩⟩
  next htag => exact ⟨n, 0, hn, hc, .inr ⟨rfl, .inl htag⟩⟩
  next htag => exact ⟨n, 0, hn, hc, .inr ⟨rfl, .inr htag⟩⟩
  next => cases h

end Blame

/-! ## Evaluation -/

/-- A run coupled with itself: it comes to nodes of one tree only, and that tree has a node
to blame for its faults. -/
def blaming (root : Node) : Coupling where
  node n n' := root.Contains n ∧ conforming.node n n'
  shared _ := True
  apart _ _ _ := True
  console := Eq
  fault f g := f = g ∧ f.IsBlamedIn root

theorem lawful_blaming (root : Node) : (blaming root).Lawful where
  tag h := lawful_conforming.tag h.2
  text h := lawful_conforming.text h.2
  child {n n' i use} h hi := by
    rcases h with ⟨hn, hconforming⟩
    cases lawful_conforming.child hconforming hi with
    | missing _ _ same => exact absurd rfl same.2
    | present c c' left right same =>
        have hc : root.Contains c := hn.getElem? left
        apply Coupling.HaveChild.present c c' left right
        cases use with
        | evaluated => exact ⟨hc, same⟩
        | named | parameters => exact same
        | arguments => exact (List.forall₂_and_left _ _).2 ⟨fun a ha => hc.child ha, same⟩
  statements h hn :=
    (List.forall₂_and_left _ _).2 ⟨fun _ hs => h.1.child hs, lawful_conforming.statements h.2 hn⟩
  alternative h hn := by
    rcases Coupling.rel_cases (lawful_conforming.alternative h.2 hn) with
      ⟨hc, hc'⟩ | ⟨c, c', hc, hc', hrel⟩
    · rw [hc, hc']
      exact .none
    · rw [hc, hc']
      exact .some ⟨h.1.getElem? hc, hrel⟩
  fault h hcause := by
    rcases h with ⟨hn, rfl, -, htag⟩
    exact ⟨rfl, _, hn, rfl, Node.blames_of_raises htag hcause⟩
  childFault h hcause hc hc' := by
    rcases h with ⟨hn, rfl, -⟩
    cases hc.symm.trans hc'
    exact ⟨rfl, _, hn.getElem? hc, rfl, Node.blames_of_raisesAt hn hc hcause⟩
  write text h := lawful_conforming.write text h
  readWord h := lawful_conforming.readWord h

section Sessions

variable {root : Node} {m m' : Machine} {fuel : Nat} {f : Fault}

/-- The faults that end the calls of a session are blamed on nodes of the program. -/
theorem Session.isBlamedIn (h : Session root m) (hroot : root.Conforms)
    (htag : root.tag = .program) (hcall : execute fuel root m = .error (.fault f) m') :
    f.IsBlamedIn root := by
  have hnode : (blaming root).node root root :=
    ⟨root.contains_self, rfl, hroot, by rw [htag]; rfl⟩
  have hmachines := h.machines (lawful_blaming root) hnode (fun _ => trivial) fun _ => rfl
  have hrelates : (blaming root).Relates (blaming root).Values (execute fuel root)
      (execute fuel root) := (lawful_blaming root).eval fuel hnode trivial
  have hends := hrelates m m hmachines
  rw [hcall] at hends
  cases hends with
  | stops stop _ =>
      cases stop with
      | fault same => exact same.2

end Sessions

/-- Whatever source text parses, whether its names resolve or not: a fault that ends a call of
an interpreter has the place of a node that the code of the fault is blamed on, and a token
other than the end of the text stands there. -/
theorem faults_at_blamed_nodes {source : String} {root : Node} (hparse : parse source = .ok root)
    {m m' : Machine} (hsession : Session root m) {fuel : Nat} {f : Fault}
    (hcall : execute fuel root m = .error (.fault f) m') :
    (∃ n, root.Contains n ∧ n.span = f.span ∧ f.code.Blames root n) ∧
      ∃ tokens t, tokenize source = .ok tokens ∧ t ∈ tokens ∧ t.isEnd = false ∧
        t.span = f.span := by
  have hwell : WellFormed .unrestricted .program root :=
    wellFormed_of_parse (fun l _ => Vocabulary.admits_unrestricted l) hparse
  rcases hsession.isBlamedIn hwell.conforms hwell.allowsTag hcall with ⟨n, hn, hspan, hblames⟩
  refine ⟨⟨n, hn, hspan, hblames⟩, ?_⟩
  rcases placedIn_of_parse hparse with ⟨tokens, htokenize, hplaced⟩
  rcases List.mem_map.1 (hplaced n hn) with ⟨t, ht, hplace⟩
  rcases List.mem_filter.1 ht with ⟨hmem, hend⟩
  exact ⟨tokens, t, htokenize, hmem, by simpa using hend, hplace.trans hspan⟩

/-- A division by zero in the body of a function, which is called further on: the fault is at
the operator of the body. -/
theorem faults_at_blamed_nodes_division :
    let source := "function half(a) { a / 0; } half(1);"
    ∃ root m, parse source = .ok root ∧
      execute 20 root (.initial {}) = .error (.fault ⟨.divisionByZero, ⟨1, 22⟩⟩) m ∧
      (∃ n, root.Contains n ∧ n.span = ⟨1, 22⟩ ∧ n.tag = .binary (.arithmetic .div)) ∧
      ∃ tokens t, tokenize source = .ok tokens ∧ t ∈ tokens ∧ t.isEnd = false ∧
        t.span = ⟨1, 22⟩ := by
  intro source
  have hrun : (match parse source with
      | .ok root => (Program.run 20 ⟨root, .initial⟩ {}).ending
      | .error _ => .outOfFuel) = .fault ⟨.divisionByZero, ⟨1, 22⟩⟩ := by decide +kernel
  split at hrun
  next root hparse =>
    unfold Program.run at hrun
    split at hrun
    next => cases hrun
    next f m hcall =>
      cases hrun
      exact ⟨root, m, hparse, hcall, faults_at_blamed_nodes hparse (.start {}) hcall⟩
    next => cases hrun
  next => cases hrun

end ScopeLang
