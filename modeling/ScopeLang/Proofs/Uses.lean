-- SUMMARY: The uses of names in a program, the region that each is resolved in, and its rivals.
import ScopeLang.Program
import ScopeLang.Proofs.Resolution
import ScopeLang.Proofs.RoundTrip

/-! # Uses of names

`SymbolTable.uses` goes through a tree as resolution does and lists the names
that are read, called or assigned to, each with the table that resolution has
there. The depth of the region in which the name is found is the number of
regions around it.

A region is not finished when a function in it is resolved: what follows may
declare further names, and the function may be called after that. So each use
comes with the open regions as they are when they are closed, too. A region
around a function is a rival for the names in the function's body if it lies
further inside than the region in which the name is found and has a declaration
of the name by the time it is closed.

The uses in a source text are at different places, so that a place says which use
it is.
-/

namespace ScopeLang

/-! ## Resolved depths -/

/-- A use of a name, as resolution comes to it. -/
structure Use where
  place : Span
  name : String
  /-- The table of the regions that are open there. -/
  table : SymbolTable
  /-- The same regions as they are when they are closed, innermost first. -/
  closing : List Region

/-- How many regions lie around the innermost one that declares a name. -/
def Region.depthOf? (name : String) : List Region → Option Nat
  | [] => none
  | r :: outer => if r.declares name then some outer.length else depthOf? name outer

/-- The depths of the regions further inside than the one that declares a name, which lie
around a function and declare the name by the time they are closed. Regions are `live`
from the inside out up to the first region of a function. -/
def Region.rivals (name : String) (live : Bool) : List Region → List Region → List Nat
  | r :: outer, c :: closing =>
    if r.declares name then
      []
    else
      (if !live && c.declares name then [outer.length] else [])
        ++ rivals name (live && r.kind != .function) outer closing
  | _, _ => []

namespace Use

/-- The depth of the region in which resolution finds the name. -/
def depth? (u : Use) : Option Nat :=
  Region.depthOf? u.name u.table.regions

/-- The region itself. -/
def region? (u : Use) : Option Region :=
  u.depth?.bind (u.table.regions.reverse[·]?)

/-- The depths of the regions that may take its place. -/
def rivals (u : Use) : List Nat :=
  Region.rivals u.name true u.table.regions u.closing

/-- The depths at which the owner of the name may lie in a run: that of the region in which
the name is found, and those of its rivals. -/
def depths (u : Use) : List Nat :=
  match u.depth? with
  | some d => d :: u.rivals
  | none => []

end Use

theorem Region.depthOf?_lt {name : String} {regions : List Region} {d : Nat}
    (h : Region.depthOf? name regions = some d) : d < regions.length := by
  induction regions with
  | nil => cases h
  | cons r outer ih =>
      unfold Region.depthOf? at h
      split at h
      · cases h
        exact Nat.lt_succ_self _
      · exact Nat.lt_succ_of_lt (ih h)

/-- Rivals lie further inside than the region in which the name is found. -/
theorem Region.lt_of_mem_rivals {name : String} {live : Bool} {regions closing : List Region}
    {d rival : Nat} (h : Region.depthOf? name regions = some d)
    (hrival : rival ∈ Region.rivals name live regions closing) : d < rival := by
  induction regions generalizing live closing with
  | nil => cases h
  | cons r outer ih =>
      cases closing with
      | nil => cases hrival
      | cons c closing =>
          unfold Region.depthOf? at h
          unfold Region.rivals at hrival
          split at h
          next hdeclares =>
            rw [if_pos hdeclares] at hrival
            cases hrival
          next hdeclares =>
            rw [if_neg hdeclares, List.mem_append] at hrival
            obtain hself | houter := hrival
            · split at hself
              · cases List.mem_singleton.1 hself
                exact Region.depthOf?_lt h
              · cases hself
            · exact ih h houter

/-- A name refers to its declaration in the region in which it is found. -/
theorem Use.lookup_eq (u : Use) : u.table.lookup u.name = u.region?.bind (·.get? u.name) := by
  unfold SymbolTable.lookup region? depth?
  generalize u.table.regions = regions
  induction regions with
  | nil => rfl
  | cons r outer ih =>
      rw [List.findSome?_cons, Region.depthOf?, List.reverse_cons]
      cases hget : r.get? u.name with
      | some s =>
          have hdeclares : r.declares u.name = true := Option.isSome_iff_exists.2 ⟨s, hget⟩
          simp [hdeclares, hget]
      | none =>
          have hdeclares : ¬ r.declares u.name = true := by
            change ¬ (r.get? u.name).isSome = true
            simp [hget]
          rw [if_neg hdeclares]
          refine ih.trans (congrArg (Option.bind · _) (Option.bind_congr fun d hd => ?_))
          rw [List.getElem?_append_left (by simpa using Region.depthOf?_lt hd)]

/-! ## Uses in a tree -/

namespace SymbolTable

/-- A name that resolves is found at some depth. -/
theorem exists_depthOf_of_sees {t : SymbolTable} {name : String} (h : t.sees name = true) :
    ∃ d, Region.depthOf? name t.regions = some d := by
  obtain ⟨r, hr, hname⟩ := sees_iff.1 h
  generalize t.regions = regions at hr
  induction hr with
  | head outer => exact ⟨outer.length, if_pos hname⟩
  | @tail r' outer _ ih =>
      unfold Region.depthOf?
      split
      · exact ⟨outer.length, rfl⟩
      · exact ih

/-- The table after a tree, if its names resolve. -/
def after (t : SymbolTable) (n : Node) : SymbolTable :=
  (t.walk n).toOption.getD t

mutual

/-- The uses of names in a tree. -/
def uses (t : SymbolTable) (closing : List Region) : Node → List Use
  | ⟨tag, text, span, children⟩ =>
    match tag, children with
    | .name, _ => [⟨span, text, t, closing⟩]
    | .call, children => ⟨span, text, t, closing⟩ :: usesAll t closing children
    | .definition, _ | .parameters, _ => []
    | .conditional, test :: body :: rest =>
      let inside := (t.after test).push .block
      uses t closing test ++ uses inside ((inside.after body).current :: closing) body
        ++ usesAll (inside.after body).pop closing rest
    | .alternative, [body] =>
      let inside := t.push .block
      uses inside ((inside.after body).current :: closing) body
    | .loop, [test, body] =>
      let inside := (t.after test).push .block
      uses t closing test ++ uses inside ((inside.after body).current :: closing) body
    | .function, [parameters, body] =>
      let inside := ((t.declare ⟨text, .function, span, 0⟩).push .function).declareParameters
        parameters.children
      uses inside ((inside.after body).current :: closing) body
    | _, children => usesAll t closing children

/-- The uses of names in some trees, one after another. -/
def usesAll (t : SymbolTable) (closing : List Region) : List Node → List Use
  | [] => []
  | n :: ns => uses t closing n ++ usesAll (t.after n) closing ns

end

theorem after_eq {t t' : SymbolTable} {n : Node} (h : t.walk n = .ok t') : t.after n = t' := by
  unfold after
  rw [h]
  rfl

theorem walk_name_of_sees {t : SymbolTable} {spelling : String} (place : Span)
    (h : t.sees spelling = true) : t.walk (.leaf .name spelling place) = .ok t := by
  obtain ⟨s, hs⟩ := Option.isSome_iff_exists.1 h
  unfold Node.leaf walk resolve
  rw [hs]
  rfl

theorem forall_usesAll_cons {good : Use → Prop} {t t' : SymbolTable} {closing : List Region}
    {n : Node} {ns : List Node} (hwalk : t.walk n = .ok t')
    (h : ∀ u ∈ usesAll t closing (n :: ns), good u) :
    (∀ u ∈ t.uses closing n, good u) ∧ ∀ u ∈ usesAll t' closing ns, good u := by
  rw [usesAll, after_eq hwalk] at h
  exact List.forall_mem_append.1 h

section Constructs

variable {good : Use → Prop} {t t₁ t₂ : SymbolTable} {closing : List Region} {keyword : Span}
  {test body : Node}

-- This derives the equations of `uses` once. Otherwise each of the proofs below waits for them.
attribute [local simp] uses

theorem forall_uses_conditional {rest : List Node} (htest : t.walk test = .ok t₁)
    (hbody : (t₁.push .block).walk body = .ok t₂)
    (h : ∀ u ∈ t.uses closing (.inner .conditional keyword (test :: body :: rest)), good u) :
    (∀ u ∈ t.uses closing test, good u) ∧
      (∀ u ∈ (t₁.push .block).uses (t₂.current :: closing) body, good u) ∧
      ∀ u ∈ usesAll t₂.pop closing rest, good u := by
  simp only [Node.inner, uses, after_eq htest, after_eq hbody, List.append_assoc,
    List.forall_mem_append] at h
  exact h

theorem forall_uses_loop (htest : t.walk test = .ok t₁)
    (hbody : (t₁.push .block).walk body = .ok t₂)
    (h : ∀ u ∈ t.uses closing (.inner .loop keyword [test, body]), good u) :
    (∀ u ∈ t.uses closing test, good u) ∧
      ∀ u ∈ (t₁.push .block).uses (t₂.current :: closing) body, good u := by
  simp only [Node.inner, uses, after_eq htest, after_eq hbody, List.forall_mem_append] at h
  exact h

theorem forall_uses_alternative (hbody : (t.push .block).walk body = .ok t₁)
    (h : ∀ u ∈ t.uses closing (.inner .alternative keyword [body]), good u) :
    ∀ u ∈ (t.push .block).uses (t₁.current :: closing) body, good u := by
  simp only [Node.inner, uses, after_eq hbody] at h
  exact h

theorem forall_uses_function {spelling : String} {opening : Span} {parameters : List Node}
    (hbody : (((t.declare ⟨spelling, .function, keyword, 0⟩).push .function).declareParameters
      parameters).walk body = .ok t₁)
    (h : ∀ u ∈ t.uses closing
      ⟨.function, spelling, keyword, [.inner .parameters opening parameters, body]⟩, good u) :
    ∀ u ∈ (((t.declare ⟨spelling, .function, keyword, 0⟩).push .function).declareParameters
      parameters).uses (t₁.current :: closing) body, good u := by
  simp only [Node.inner, uses, after_eq hbody] at h
  exact h

end Constructs

end SymbolTable

/-- The uses of names in a program. -/
def Program.uses (p : Program) : List Use :=
  SymbolTable.initial.uses [p.symbols.current] p.root

/-! ## Places of uses -/

/-- The places of the uses in some trees are among those given, in the same order. -/
def UsesAmong (ns : List Node) (places : List Span) : Prop :=
  ∀ t closing, ((SymbolTable.usesAll t closing ns).map Use.place).Sublist places

namespace UsesAmong

variable {n n' : Node} {ns : List Node} {places places' places'' : List Span}

theorem nil : UsesAmong [] [] :=
  fun _ _ => .slnil

theorem mono (h : UsesAmong ns places) (hsub : places.Sublist places') : UsesAmong ns places' :=
  fun t closing => (h t closing).trans hsub

theorem single (h : ∀ t closing, ((SymbolTable.uses t closing n).map Use.place).Sublist places) :
    UsesAmong [n] places := by
  intro t closing
  simp only [SymbolTable.usesAll, List.append_nil]
  exact h t closing

theorem uses (h : UsesAmong [n] places) (t : SymbolTable) (closing : List Region) :
    ((t.uses closing n).map Use.place).Sublist places := by
  have hsub := h t closing
  simp only [SymbolTable.usesAll, List.append_nil] at hsub
  exact hsub

theorem cons (h : UsesAmong [n] places) (h' : UsesAmong ns places') :
    UsesAmong (n :: ns) (places ++ places') := by
  intro t closing
  simp only [SymbolTable.usesAll, List.map_append]
  exact (h.uses t closing).append (h' _ _)

/-- A node whose uses are those of its children. -/
theorem node {tag : Tag} {text : String} {span : Span} (h : UsesAmong ns places)
    (htag : ∀ t closing, SymbolTable.uses t closing ⟨tag, text, span, ns⟩ =
      SymbolTable.usesAll t closing ns) : UsesAmong [⟨tag, text, span, ns⟩] places := by
  apply single
  intro t closing
  rw [htag]
  exact h t closing

/-- A test, a block, and what follows them. -/
theorem conditional {keyword : Span} (htest : UsesAmong [n] places)
    (hbody : UsesAmong [n'] places') (hrest : UsesAmong ns places'') :
    UsesAmong [.inner .conditional keyword (n :: n' :: ns)] (places ++ (places' ++ places'')) := by
  apply single
  intro t closing
  simp only [Node.inner, SymbolTable.uses, List.map_append, List.append_assoc]
  exact (htest.uses _ _).append ((hbody.uses _ _).append (hrest _ _))

theorem loop {keyword : Span} (htest : UsesAmong [n] places) (hbody : UsesAmong [n'] places') :
    UsesAmong [.inner .loop keyword [n, n']] (places ++ places') := by
  apply single
  intro t closing
  simp only [Node.inner, SymbolTable.uses, List.map_append]
  exact (htest.uses _ _).append (hbody.uses _ _)

theorem alternative {keyword : Span} (hbody : UsesAmong [n] places) :
    UsesAmong [.inner .alternative keyword [n]] places := by
  apply single
  intro t closing
  simp only [Node.inner, SymbolTable.uses]
  exact hbody.uses _ _

theorem function {spelling : String} {keyword : Span} {parameters : Node}
    (hbody : UsesAmong [n] places) :
    UsesAmong [⟨.function, spelling, keyword, [parameters, n]⟩] places := by
  apply single
  intro t closing
  simp only [SymbolTable.uses]
  exact hbody.uses _ _

theorem name (spelling : String) (place : Span) :
    UsesAmong [.leaf .name spelling place] [place] :=
  single fun _ _ => .refl _

theorem call {callee : String} {place opening : Span} (h : UsesAmong ns places) :
    UsesAmong [⟨.call, callee, place, [.inner .arguments opening ns]⟩] (place :: places) := by
  have harguments : UsesAmong [.inner .arguments opening ns] places := h.node fun _ _ => rfl
  exact single fun t closing => (harguments t closing).cons_cons place

end UsesAmong

namespace Grammar

/-- The trees of what a symbol stands for, operations apart, have their uses among the
places. Operations add their uses to those of the operand to their left. -/
def Symbol.UsesAmong : (s : Symbol) → s.Value → List Span → Prop
  | .one _, n, places => ScopeLang.UsesAmong [n] places
  | .many _, ns, places | .separated _, ns, places | .alternative, ns, places =>
    ScopeLang.UsesAmong ns places
  | .parenthesized _, x, places => ScopeLang.UsesAmong x.1 places
  | .operations _, f, places => ∀ left before,
    ScopeLang.UsesAmong [left] before → ScopeLang.UsesAmong [f left] (before ++ places)

/-- The uses in the tree of a derivation are at tokens of its text. -/
theorem Derivation.usesAmong_tree {s : Symbol} (d : Derivation s) :
    s.UsesAmong d.tree (d.tokens.map Token.span) := by
  induction d with
  | program body ih => exact UsesAmong.node ih fun _ _ => rfl
  | statement inside ih => exact UsesAmong.node ih fun _ _ => rfl
  | definition keyword target place semicolon =>
      exact UsesAmong.single fun _ _ => List.nil_sublist _
  | conditional keyword test body otherwise ihtest ihbody ihotherwise =>
      simp only [tokens, List.map_cons, List.map_append]
      exact (UsesAmong.conditional ihtest ihbody ihotherwise).mono (List.sublist_cons_self _ _)
  | loop keyword test body ihtest ihbody =>
      simp only [tokens, List.map_cons, List.map_append]
      exact (UsesAmong.loop ihtest ihbody).mono (List.sublist_cons_self _ _)
  | function keyword spelling place parameters body ihparameters ihbody =>
      simp only [tokens, List.map_cons, List.map_append]
      refine (UsesAmong.function ihbody).mono ?_
      exact ((List.sublist_append_right _ _).cons _).cons _
  | evaluation e semicolon ih =>
      simp only [tokens, List.map_append]
      exact UsesAmong.mono ih (List.sublist_append_left _ _)
  | block opening body closing ih =>
      simp only [tokens, List.map_cons, List.map_append]
      have hblock : UsesAmong [.inner .block opening body.tree] (body.tokens.map Token.span) :=
        UsesAmong.node ih fun _ _ => rfl
      exact hblock.mono ((List.sublist_append_left _ _).cons _)
  | noAlternative => exact UsesAmong.nil
  | alternative keyword body ih =>
      exact (UsesAmong.alternative ih).mono (List.sublist_cons_self _ _)
  | condition opening inside closing ih | group opening inside closing ih =>
      simp only [tokens, List.map_cons, List.map_append]
      exact UsesAmong.mono ih ((List.sublist_append_left _ _).cons _)
  | assignment target place equals value ih =>
      have hassignment :
          UsesAmong [.inner .assignment equals [.leaf .name target place, value.tree]]
          ([place] ++ value.tokens.map Token.span) :=
        UsesAmong.node ((UsesAmong.name target place).cons ih) fun _ _ => rfl
      exact hassignment.mono ((List.sublist_cons_self _ _).cons_cons _)
  | logical inside ih => exact ih
  | level l first rest ihfirst ihrest =>
      simp only [tokens, List.map_append]
      exact ihrest _ _ ihfirst
  | noOperation l =>
      intro left before h
      simp only [tokens, List.map_nil, List.append_nil]
      exact h
  | onlyOperation l once op belongs place right ih =>
      intro left before h
      have hbinary : UsesAmong [.inner (.binary op) place [left, right.tree]]
          (before ++ right.tokens.map Token.span) :=
        UsesAmong.node (h.cons ih) fun _ _ => rfl
      exact hbinary.mono ((List.sublist_cons_self _ _).append_left _)
  | moreOperations l often op belongs place right rest ihright ihrest =>
      intro left before h
      -- The tree grows around what is to its left, and its uses stay in the order of the text.
      have hbinary : UsesAmong [.inner (.binary op) place [left, right.tree]]
          (before ++ right.tokens.map Token.span) :=
        UsesAmong.node (h.cons ihright) fun _ _ => rfl
      simp only [tokens, List.map_cons, List.map_append]
      refine (ihrest _ _ hbinary).mono ?_
      rw [List.append_assoc]
      exact (List.sublist_cons_self _ _).append_left _
  | number digits place | text content place =>
      exact UsesAmong.single fun _ _ => List.nil_sublist _
  | name spelling place | parameter spelling place => exact UsesAmong.name spelling place
  | call callee place arguments ih => exact UsesAmong.call ih
  | last p first ih | lastItem p first ih => exact ih
  | more p first rest ihfirst ihrest =>
      simp only [tokens, List.map_append]
      exact UsesAmong.cons ihfirst ihrest
  | moreItems p first comma rest ihfirst ihrest =>
      simp only [tokens, List.map_append, List.map_cons]
      exact (UsesAmong.cons ihfirst ihrest).mono ((List.sublist_cons_self _ _).append_left _)
  | noItems p opening closing => exact UsesAmong.nil.mono (List.nil_sublist _)
  | items p opening list closing ih =>
      simp only [tokens, List.map_cons, List.map_append]
      exact UsesAmong.mono ih ((List.sublist_append_left _ _).cons _)

end Grammar

/-! ## Places of tokens -/

/-- The first place comes before the second one in a text. -/
def Span.Before (s s' : Span) : Prop :=
  s.line < s'.line ∨ s.line = s'.line ∧ s.column < s'.column

namespace Span

theorem Before.trans {s s' s'' : Span} (h : s.Before s') (h' : s'.Before s'') : s.Before s'' := by
  unfold Before at *
  omega

theorem Before.ne {s s' : Span} (h : s.Before s') : s ≠ s' := by
  rintro rfl
  unfold Before at h
  omega

theorem before_step (s : Span) (b : UInt8) : s.Before (s.step b) := by
  unfold step Before
  split
  · exact .inl (Nat.lt_succ_self _)
  · exact .inr ⟨rfl, Nat.lt_succ_self _⟩

theorem before_after (s : Span) (b : UInt8) (bs : List UInt8) : s.Before (s.after (b :: bs)) := by
  induction bs generalizing s b with
  | nil => exact before_step s b
  | cons b' bs ih => exact (before_step s b).trans (ih _ b')

end Span

/-- The tokens of a text are found one after another. -/
theorem pairwise_before_of_scan {here : Span} {bs : List UInt8} {tokens : List Token}
    (h : scan here bs = .ok tokens) :
    (tokens.map Token.span).Pairwise Span.Before ∧
      ∀ s ∈ tokens.map Token.span, s = here ∨ here.Before s := by
  fun_induction scan here bs generalizing tokens with
  | case1 here =>
      cases h
      simp
  | case2 here b rest more hpiece ih =>
      obtain ⟨hpairwise, hlater⟩ := ih h
      refine ⟨hpairwise, fun s hs => .inr ?_⟩
      obtain rfl | hbefore := hlater s hs
      · exact here.before_after _ _
      · exact (here.before_after _ _).trans hbefore
  | case3 here b rest l more hpiece ih =>
      obtain ⟨inner, hinner, h⟩ := SymbolTable.exists_of_bind_eq_ok h
      cases h
      obtain ⟨hpairwise, hlater⟩ := ih hinner
      have hbefore : ∀ s ∈ inner.map Token.span, here.Before s := by
        intro s hs
        obtain rfl | hbefore := hlater s hs
        · exact here.before_after _ _
        · exact (here.before_after _ _).trans hbefore
      refine ⟨List.pairwise_cons.2 ⟨hbefore, hpairwise⟩, ?_⟩
      exact List.forall_mem_cons.2 ⟨.inl rfl, fun s hs => .inr (hbefore s hs)⟩
  | case4 here b rest cause offset hpiece => cases h

/-- A program that compiles uses its names at different places. -/
theorem Program.nodup_places {source : String} {p : Program} (h : compile source = .ok p) :
    (p.uses.map Use.place).Nodup := by
  -- The uses are among the tokens of a derivation, in the order in which these were scanned.
  rw [compile] at h
  obtain ⟨root, hparse, h⟩ := SymbolTable.exists_of_bind_eq_ok h
  obtain ⟨symbols, hanalyze, h⟩ := SymbolTable.exists_of_bind_eq_ok h
  cases h
  rw [parse] at hparse
  obtain ⟨tokens, htokenize, hparse⟩ := SymbolTable.exists_of_bind_eq_ok hparse
  obtain ⟨ts, stop, rfl, hstop, hlexical⟩ := exists_tokens_of_scan htokenize
  have hfree : Grammar.EndFree ts := fun x hx => (hlexical x hx).1
  obtain ⟨d, rfl, rfl⟩ :=
    (Grammar.parseTokens_eq_ok_iff hfree (Grammar.ofTokens_append_end ts hstop)).1 hparse
  have hsub : (Program.uses ⟨d.tree, symbols⟩ |>.map Use.place).Sublist
      ((d.tokens ++ [stop]).map Token.span) := by
    rw [List.map_append]
    exact (d.usesAmong_tree.uses _ _).trans (List.sublist_append_left _ _)
  have hpairwise := (pairwise_before_of_scan htokenize).1.sublist hsub
  exact hpairwise.imp Span.Before.ne

end ScopeLang
