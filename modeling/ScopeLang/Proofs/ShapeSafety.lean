-- SUMMARY: Trees from the parser have the children that every phase calls for.
import ScopeLang.Proofs.Coupling
import ScopeLang.Proofs.NameSafety
import ScopeLang.Proofs.ParseProgram

/-! # Shapes of trees

`Tag.Takes` is the table of `ScopeLang/Tree/Basic.lean`: the children that a
node has by its tag. A tree conforms to the table if each of its nodes does. What
the parser yields for any token sequence conforms.

A tree that conforms has every child that a phase calls for. So it has a source
text, resolution fails for no other reason than an undefined name, and
evaluation never raises the fault of a malformed tree. For evaluation this has
to hold of the bodies of all functions in the store too: the run is coupled with
itself, and the coupling has trees that conform only.
-/

namespace ScopeLang

/-! ## The table of children -/

namespace Tag

/-- Whether the nodes of a tag are expressions. -/
def isExpression : Tag → Bool
  | .number | .text | .name | .binary _ | .assignment | .call => true
  | _ => false

/-- Whether a statement may consist of a node of the tag. -/
def isInside : Tag → Bool
  | .definition | .conditional | .loop | .function => true
  | tag => tag.isExpression

/-- Whether the nodes of a tag can be evaluated on their own. -/
def isEvaluable : Tag → Bool
  | .arguments | .parameters => false
  | _ => true

/-- The tags of the children that a node of a tag has. -/
def Takes : Tag → List Tag → Prop
  | .number, tags | .text, tags | .name, tags => tags = []
  | .binary _, tags => ∃ left right, tags = [left, right] ∧ left.isExpression ∧ right.isExpression
  | .statement, tags => ∃ inside, tags = [inside] ∧ inside.isInside
  | .block, tags | .program, tags => tags ≠ [] ∧ ∀ tag ∈ tags, tag = .statement
  | .definition, tags => tags = [.name]
  | .assignment, tags => ∃ value, tags = [.name, value] ∧ value.isExpression
  | .conditional, tags =>
    ∃ test, (tags = [test, .block] ∨ tags = [test, .block, .alternative]) ∧ test.isExpression
  | .alternative, tags => tags = [.block]
  | .loop, tags => ∃ test, tags = [test, .block] ∧ test.isExpression
  | .function, tags => tags = [.parameters, .block]
  | .call, tags => tags = [.arguments]
  | .parameters, tags => ∀ tag ∈ tags, tag = .name
  | .arguments, tags => ∀ tag ∈ tags, tag.isExpression

theorem isInside_of_isExpression {tag : Tag} (h : tag.isExpression = true) :
    tag.isInside = true := by
  cases tag <;> first | exact h | rfl

theorem isEvaluable_of_isInside {tag : Tag} (h : tag.isInside = true) :
    tag.isEvaluable = true := by
  cases tag <;> first | rfl | cases h

theorem isEvaluable_of_isExpression {tag : Tag} (h : tag.isExpression = true) :
    tag.isEvaluable = true :=
  isEvaluable_of_isInside (isInside_of_isExpression h)

/-- A child that evaluation calls for is there, and can be used as it is called for. -/
theorem Takes.child {tag : Tag} {tags : List Tag} {i : Nat} {use : ChildUse}
    (h : tag.Takes tags) (hi : tag.childUse? i = some use) :
    ∃ c, tags[i]? = some c ∧ (use = .evaluated → c.isEvaluable = true) ∧
      (use = .arguments → c = .arguments) := by
  cases tag with
  | number | text | name | block | program | parameters | arguments => cases hi
  | binary op =>
      obtain ⟨left, right, rfl, hleft, hright⟩ := h
      match i, hi with
      | 0, rfl => exact ⟨left, rfl, fun _ => isEvaluable_of_isExpression hleft, nofun⟩
      | 1, rfl => exact ⟨right, rfl, fun _ => isEvaluable_of_isExpression hright, nofun⟩
  | statement =>
      obtain ⟨inside, rfl, hinside⟩ := h
      match i, hi with
      | 0, rfl => exact ⟨inside, rfl, fun _ => isEvaluable_of_isInside hinside, nofun⟩
  | definition =>
      obtain rfl := h
      match i, hi with
      | 0, rfl => exact ⟨.name, rfl, nofun, nofun⟩
  | assignment =>
      obtain ⟨value, rfl, hvalue⟩ := h
      match i, hi with
      | 0, rfl => exact ⟨.name, rfl, nofun, nofun⟩
      | 1, rfl => exact ⟨value, rfl, fun _ => isEvaluable_of_isExpression hvalue, nofun⟩
  | conditional =>
      obtain ⟨test, htags, htest⟩ := h
      match i, hi with
      | 0, rfl =>
        refine ⟨test, ?_, fun _ => isEvaluable_of_isExpression htest, nofun⟩
        obtain rfl | rfl := htags <;> rfl
      | 1, rfl =>
        refine ⟨.block, ?_, fun _ => rfl, nofun⟩
        obtain rfl | rfl := htags <;> rfl
  | alternative =>
      obtain rfl := h
      match i, hi with
      | 0, rfl => exact ⟨.block, rfl, fun _ => rfl, nofun⟩
  | loop =>
      obtain ⟨test, rfl, htest⟩ := h
      match i, hi with
      | 0, rfl => exact ⟨test, rfl, fun _ => isEvaluable_of_isExpression htest, nofun⟩
      | 1, rfl => exact ⟨.block, rfl, fun _ => rfl, nofun⟩
  | function =>
      obtain rfl := h
      match i, hi with
      | 0, rfl => exact ⟨.parameters, rfl, nofun, nofun⟩
      | 1, rfl => exact ⟨.block, rfl, fun _ => rfl, nofun⟩
  | call =>
      obtain rfl := h
      match i, hi with
      | 0, rfl => exact ⟨.arguments, rfl, nofun, fun _ => rfl⟩

end Tag

/-! ## Trees that conform to the table -/

namespace Node

/-- Every node of the tree has the children that its tag calls for. -/
def Conforms (n : Node) : Prop :=
  ∀ path p, n.at? path = some p → p.tag.Takes (p.children.map Node.tag)

variable {n : Node}

theorem Conforms.takes (h : n.Conforms) : n.tag.Takes (n.children.map Node.tag) :=
  h [] n rfl

theorem Conforms.child (h : n.Conforms) {c : Node} (hc : c ∈ n.children) : c.Conforms := by
  obtain ⟨i, hi⟩ := List.getElem?_of_mem hc
  intro path p hp
  apply h (i :: path) p
  rw [at?, hi]
  exact hp

/-- A child that evaluation calls for is there. -/
theorem Conforms.lt_length (h : n.Conforms) {i : Nat} {use : ChildUse}
    (hi : n.tag.childUse? i = some use) : i < n.children.length := by
  obtain ⟨tag, htag, -⟩ := h.takes.child hi
  simpa using (List.getElem?_eq_some_iff.1 htag).1

theorem Conforms.of_children (htakes : n.tag.Takes (n.children.map Node.tag))
    (hchildren : ∀ c ∈ n.children, c.Conforms) : n.Conforms := by
  intro path p hp
  cases path with
  | nil =>
      cases hp
      exact htakes
  | cons i path =>
      rw [at?] at hp
      obtain ⟨c, hc, hp⟩ := Option.bind_eq_some_iff.1 hp
      exact hchildren c (List.mem_of_getElem? hc) path p hp

end Node

/-- The tags that a node may have for its part in a program. -/
def Role.AllowsTag : Role → Tag → Prop
  | .expression, tag => tag.isExpression
  | .parameter, tag => tag = .name
  | .construct, tag => tag.isInside
  | .alternative, tag => tag = .alternative
  | .statement, tag => tag = .statement
  | .block, tag => tag = .block
  | .program, tag => tag = .program

theorem WellFormed.allowsTag {v : Vocabulary} {role : Role} {n : Node} (h : WellFormed v role n) :
    role.AllowsTag n.tag := by
  induction h with
  | evaluation _ ih => exact Tag.isInside_of_isExpression ih
  | _ => rfl

/-- The trees of derivations conform to the table. -/
theorem WellFormed.conforms {v : Vocabulary} {role : Role} {n : Node} (h : WellFormed v role n) :
    n.Conforms := by
  induction h with
  | number | text | name | parameter => exact .of_children rfl nofun
  | binary hleft hright ihleft ihright =>
      refine .of_children ⟨_, _, rfl, hleft.allowsTag, hright.allowsTag⟩ ?_
      exact List.forall_mem_cons.2 ⟨ihleft, List.forall_mem_singleton.2 ihright⟩
  | assignment _ hvalue ihvalue =>
      refine .of_children ⟨_, rfl, hvalue.allowsTag⟩ ?_
      exact List.forall_mem_cons.2 ⟨.of_children rfl nofun, List.forall_mem_singleton.2 ihvalue⟩
  | call _ harguments iharguments =>
      refine .of_children rfl (List.forall_mem_singleton.2 (.of_children ?_ iharguments))
      exact List.forall_mem_map.2 fun a ha => (harguments a ha).allowsTag
  | evaluation _ ih => exact ih
  | definition => exact .of_children rfl (List.forall_mem_singleton.2 (.of_children rfl nofun))
  | conditional htest hbody ihtest ihbody =>
      refine .of_children ⟨_, .inl ?_, htest.allowsTag⟩ ?_
      · exact congrArg (fun tag => [_, tag]) hbody.allowsTag
      · exact List.forall_mem_cons.2 ⟨ihtest, List.forall_mem_singleton.2 ihbody⟩
  | conditionalElse htest hbody hotherwise ihtest ihbody ihotherwise =>
      refine .of_children ⟨_, .inr ?_, htest.allowsTag⟩ ?_
      · exact congrArg₂ (fun tag tag' => [_, tag, tag']) hbody.allowsTag hotherwise.allowsTag
      · exact List.forall_mem_cons.2
          ⟨ihtest, List.forall_mem_cons.2 ⟨ihbody, List.forall_mem_singleton.2 ihotherwise⟩⟩
  | loop htest hbody ihtest ihbody =>
      refine .of_children ⟨_, ?_, htest.allowsTag⟩ ?_
      · exact congrArg (fun tag => [_, tag]) hbody.allowsTag
      · exact List.forall_mem_cons.2 ⟨ihtest, List.forall_mem_singleton.2 ihbody⟩
  | function _ hparameters hbody ihparameters ihbody =>
      refine .of_children (congrArg (fun tag => [_, tag]) hbody.allowsTag) ?_
      refine List.forall_mem_cons.2
        ⟨.of_children ?_ ihparameters, List.forall_mem_singleton.2 ihbody⟩
      exact List.forall_mem_map.2 fun p hp => (hparameters p hp).allowsTag
  | alternative hbody ihbody =>
      refine .of_children (congrArg (fun tag => [tag]) hbody.allowsTag) ?_
      exact List.forall_mem_singleton.2 ihbody
  | statement hinside ih =>
      exact .of_children ⟨_, rfl, hinside.allowsTag⟩ (List.forall_mem_singleton.2 ih)
  | block hsome hstatements ih | program hsome hstatements ih =>
      refine .of_children ⟨fun hnone => hsome (List.map_eq_nil_iff.1 hnone), ?_⟩ ih
      exact List.forall_mem_map.2 fun s hs => (hstatements s hs).allowsTag

/-- What the parser yields has a derivation, whatever the tokens are. -/
theorem exists_derivation_of_parseTokens {tokens : List Token} {t : Node}
    (h : parseTokens tokens = .ok t) : ∃ d : Grammar.Program, d.tree = t := by
  have hclosed : (Token.Stream.ofTokens tokens).Closed :=
    eq_of_beq (Token.Stream.isEnd_stop_ofTokens tokens)
  unfold parseTokens at h
  cases Grammar.reads_program hclosed with
  | accepts d rest run after only =>
      simp only [StateT.run, run] at h
      cases h
      exact ⟨d, rfl⟩
  | refuses f taken rest run after blames viable stuck =>
      simp only [StateT.run, run] at h
      cases h

theorem conforms_of_parseTokens {tokens : List Token} {t : Node}
    (h : parseTokens tokens = .ok t) : t.Conforms := by
  obtain ⟨d, rfl⟩ := exists_derivation_of_parseTokens h
  have hwell : WellFormed .unrestricted .program d.tree :=
    d.wellFormed_tree fun x _ => Vocabulary.admits_unrestricted x.lexeme
  exact hwell.conforms

theorem tag_of_parseTokens {tokens : List Token} {t : Node}
    (h : parseTokens tokens = .ok t) : t.tag = .program := by
  obtain ⟨d, rfl⟩ := exists_derivation_of_parseTokens h
  cases d
  rfl

/-! ## Source texts -/

/-- The computation does not fail. -/
def Returns {α : Type} (x : Except Fault α) : Prop :=
  ∃ a, x = .ok a

theorem Returns.bind {α β : Type} {x : Except Fault α} {f : α → Except Fault β} (hx : Returns x)
    (hf : ∀ a, Returns (f a)) : Returns (x >>= f) := by
  obtain ⟨a, rfl⟩ := hx
  exact hf a

theorem Returns.pure {α : Type} (a : α) : Returns (Pure.pure a) :=
  ⟨a, rfl⟩

namespace Node

mutual

theorem expressionSource_returns : ∀ n : Node, n.Conforms → Returns n.expressionSource
  | ⟨tag, text, span, children⟩, h => by
    have hall : ∀ c ∈ children, c.Conforms := fun c hc => h.child hc
    cases tag with
    | binary op =>
        refine (expressionSourceAt_returns _ 0 children hall (h.lt_length rfl)).bind fun _ => ?_
        refine (expressionSourceAt_returns _ 1 children hall (h.lt_length rfl)).bind fun _ => ?_
        exact .pure _
    | assignment =>
        refine (assignmentSource_returns _ children hall (h.lt_length rfl)).bind fun _ => ?_
        exact .pure _
    | call =>
        refine (argumentSources_returns _ children hall (h.lt_length rfl)).bind fun _ => ?_
        exact .pure _
    | _ => exact .pure _

theorem expressionSourceAt_returns (missing : Fault) : ∀ (i : Nat) (ns : List Node),
    (∀ n ∈ ns, n.Conforms) → i < ns.length → Returns (expressionSourceAt missing i ns)
  | _, [], _, hi => nomatch hi
  | 0, n :: _, hall, _ => expressionSource_returns n (hall n List.mem_cons_self)
  | i + 1, _ :: ns, hall, hi =>
    expressionSourceAt_returns missing i ns (fun n hn => hall n (List.mem_cons_of_mem _ hn))
      (Nat.lt_of_succ_lt_succ hi)

theorem assignmentSource_returns (missing : Nat → Fault) : ∀ ns : List Node,
    (∀ n ∈ ns, n.Conforms) → 1 < ns.length → Returns (assignmentSource missing ns)
  | [], _, hi => nomatch hi
  | _ :: ns, hall, hi =>
    (expressionSourceAt_returns (missing 1) 0 ns (fun n hn => hall n (List.mem_cons_of_mem _ hn))
      (Nat.lt_of_succ_lt_succ hi)).bind fun _ => .pure _

theorem argumentSources_returns (missing : Fault) : ∀ ns : List Node,
    (∀ n ∈ ns, n.Conforms) → 0 < ns.length → Returns (argumentSources missing ns)
  | [], _, hi => nomatch hi
  | ⟨_, _, _, arguments⟩ :: _, hall, _ =>
    expressionSources_returns arguments fun _ ha => (hall _ List.mem_cons_self).child ha

theorem expressionSources_returns : ∀ ns : List Node,
    (∀ n ∈ ns, n.Conforms) → Returns (expressionSources ns)
  | [], _ => .pure _
  | n :: ns, hall =>
    (expressionSource_returns n (hall n List.mem_cons_self)).bind fun _ =>
      (expressionSources_returns ns fun n hn => hall n (List.mem_cons_of_mem _ hn)).bind fun _ =>
        .pure _

end

mutual

theorem statementSource_returns (depth : Nat) : ∀ n : Node, n.Conforms → n.tag = .statement →
    Returns (n.statementSource depth)
  | ⟨_, _, _, children⟩, h, htag => by
    cases htag
    exact firstConstructSource_returns _ depth children (fun c hc => h.child hc) (h.lt_length rfl)

theorem firstConstructSource_returns (missing : Fault) (depth : Nat) : ∀ ns : List Node,
    (∀ n ∈ ns, n.Conforms) → 0 < ns.length → Returns (firstConstructSource missing depth ns)
  | [], _, hi => nomatch hi
  | n :: _, hall, _ => constructSource_returns depth n (hall n List.mem_cons_self)

theorem constructSource_returns (depth : Nat) : ∀ n : Node, n.Conforms →
    Returns (n.constructSource depth)
  | ⟨tag, text, span, children⟩, h => by
    have hall : ∀ c ∈ children, c.Conforms := fun c hc => h.child hc
    cases tag with
    | conditional =>
        obtain ⟨test, htags, -⟩ := h.takes
        have hblock : (children.map Node.tag)[1]? = some .block := by
          obtain htags | htags := htags <;> exact congrArg (·[1]?) htags
        have halternative : ∀ tag, (children.map Node.tag)[2]? = some tag → tag = .alternative := by
          intro tag htag
          obtain htags | htags := htags
          · cases (congrArg (·[2]?) htags).symm.trans htag
          · cases (congrArg (·[2]?) htags).symm.trans htag
            rfl
        refine (expressionSourceAt_returns _ 0 children hall (h.lt_length rfl)).bind fun _ => ?_
        refine (blockSourceAt_returns _ (depth + 1) 1 children hall hblock).bind fun _ => ?_
        refine (alternativeSourceAt_returns depth 2 children hall halternative).bind fun _ => ?_
        exact .pure _
    | loop =>
        obtain ⟨test, htags, -⟩ := h.takes
        refine (expressionSourceAt_returns _ 0 children hall (h.lt_length rfl)).bind fun _ => ?_
        refine (blockSourceAt_returns _ (depth + 1) 1 children hall
          (congrArg (·[1]?) htags)).bind fun _ => ?_
        exact .pure _
    | function =>
        have htags := h.takes
        cases children with
        | nil => cases htags
        | cons parameters rest =>
            refine (blockSourceAt_returns _ (depth + 1) 0 rest
              (fun c hc => hall c (List.mem_cons_of_mem _ hc)) (congrArg (·[1]?) htags)).bind
              fun _ => ?_
            exact .pure _
    | definition =>
        have htags := h.takes
        cases children with
        | nil => cases htags
        | cons target rest => exact .pure _
    | assignment =>
        refine (assignmentSource_returns _ children hall (h.lt_length rfl)).bind fun _ => ?_
        exact .pure _
    | _ =>
        refine (expressionSource_returns _ h).bind fun _ => ?_
        exact .pure _

theorem blockSourceAt_returns (missing : Fault) (depth : Nat) : ∀ (i : Nat) (ns : List Node),
    (∀ n ∈ ns, n.Conforms) → (ns.map Node.tag)[i]? = some .block →
    Returns (blockSourceAt missing depth i ns)
  | _, [], _, hi => nomatch hi
  | 0, ⟨_, _, _, statements⟩ :: _, hall, hi => by
    cases hi
    have hblock := hall _ List.mem_cons_self
    exact statementSources_returns depth statements (fun _ hs => hblock.child hs)
      (List.forall_mem_map.1 hblock.takes.2)
  | i + 1, _ :: ns, hall, hi => by
    simp only [blockSourceAt]
    exact blockSourceAt_returns missing depth i ns (fun n hn => hall n (List.mem_cons_of_mem _ hn))
      hi

theorem alternativeSourceAt_returns (depth : Nat) : ∀ (i : Nat) (ns : List Node),
    (∀ n ∈ ns, n.Conforms) → (∀ tag, (ns.map Node.tag)[i]? = some tag → tag = .alternative) →
    Returns (alternativeSourceAt depth i ns)
  | _, [], _, _ => by
    simp only [alternativeSourceAt]
    exact .pure _
  | 0, ⟨_, _, _, blocks⟩ :: _, hall, htag => by
    cases htag _ rfl
    have halternative := hall _ List.mem_cons_self
    refine (blockSourceAt_returns _ (depth + 1) 0 blocks (fun _ hb => halternative.child hb)
      (congrArg (·[0]?) halternative.takes)).bind fun _ => ?_
    exact .pure _
  | i + 1, _ :: ns, hall, htag => by
    simp only [alternativeSourceAt]
    exact alternativeSourceAt_returns depth i ns (fun n hn => hall n (List.mem_cons_of_mem _ hn))
      htag

theorem statementSources_returns (depth : Nat) : ∀ ns : List Node,
    (∀ n ∈ ns, n.Conforms) → (∀ n ∈ ns, n.tag = .statement) → Returns (statementSources depth ns)
  | [], _, _ => .pure _
  | n :: ns, hall, htags =>
    (statementSource_returns depth n (hall n List.mem_cons_self) (htags n List.mem_cons_self)).bind
      fun _ => (statementSources_returns depth ns (fun n hn => hall n (List.mem_cons_of_mem _ hn))
        fun n hn => htags n (List.mem_cons_of_mem _ hn)).bind fun _ => .pure _

end

/-- A tree that conforms has a source text. -/
theorem source_returns {n : Node} (h : n.Conforms) : Returns n.source := by
  obtain ⟨tag, text, span, children⟩ := n
  cases tag with
  | program | block =>
      exact statementSources_returns 0 children (fun c hc => h.child hc)
        (List.forall_mem_map.1 h.takes.2)
  | statement => exact statementSource_returns 0 _ h rfl
  | _ => exact expressionSource_returns _ h

end Node

/-! ## Resolution -/

/-- The computation fails for no other reason than an undefined name. -/
def OnlyUndefined {α : Type} (x : Except Fault α) : Prop :=
  ∀ f, x = .error f → f.code = .undefinedName

theorem OnlyUndefined.bind {α β : Type} {x : Except Fault α} {f : α → Except Fault β}
    (hx : OnlyUndefined x) (hf : ∀ a, OnlyUndefined (f a)) : OnlyUndefined (x >>= f) := by
  cases x with
  | error g =>
      intro g' hg
      cases hg
      exact hx g rfl
  | ok a => exact hf a

theorem OnlyUndefined.pure {α : Type} (a : α) : OnlyUndefined (Pure.pure a) :=
  nofun

namespace SymbolTable

theorem resolve_onlyUndefined (t : SymbolTable) (name : String) (place : Span) :
    OnlyUndefined (t.resolve name place) := by
  intro f hf
  unfold resolve at hf
  split at hf
  · cases hf
  · cases hf
    rfl

mutual

theorem walk_onlyUndefined (t : SymbolTable) : ∀ n : Node, n.Conforms → OnlyUndefined (t.walk n)
  | ⟨tag, text, span, children⟩, h => by
    have hall : ∀ c ∈ children, c.Conforms := fun c hc => h.child hc
    cases tag with
    | name => exact (resolve_onlyUndefined t text span).bind fun _ => .pure _
    | call =>
        refine (resolve_onlyUndefined t text span).bind fun _ => ?_
        exact walkAll_onlyUndefined t children hall
    | definition =>
        have htags := h.takes
        cases children with
        | nil => cases htags
        | cons target rest => exact .pure _
    | conditional =>
        refine (walkAt_onlyUndefined _ _ 0 children hall (h.lt_length rfl)).bind fun _ => ?_
        refine (walkAt_onlyUndefined _ _ 1 children hall (h.lt_length rfl)).bind fun _ => ?_
        exact walkRest_onlyUndefined _ 2 children hall
    | alternative =>
        refine (walkAt_onlyUndefined _ _ 0 children hall (h.lt_length rfl)).bind fun _ => ?_
        exact .pure _
    | loop =>
        refine (walkAt_onlyUndefined _ _ 0 children hall (h.lt_length rfl)).bind fun _ => ?_
        refine (walkAt_onlyUndefined _ _ 1 children hall (h.lt_length rfl)).bind fun _ => ?_
        exact .pure _
    | function =>
        refine (walkAt_onlyUndefined _ _ 0 children hall (h.lt_length rfl)).bind fun _ => ?_
        refine (walkAt_onlyUndefined _ _ 1 children hall (h.lt_length rfl)).bind fun _ => ?_
        exact .pure _
    | parameters => exact .pure _
    | _ => exact walkAll_onlyUndefined t children hall

theorem walkAll_onlyUndefined (t : SymbolTable) : ∀ ns : List Node,
    (∀ n ∈ ns, n.Conforms) → OnlyUndefined (t.walkAll ns)
  | [], _ => .pure _
  | n :: ns, hall =>
    (walk_onlyUndefined t n (hall n List.mem_cons_self)).bind fun t₁ =>
      walkAll_onlyUndefined t₁ ns fun n hn => hall n (List.mem_cons_of_mem _ hn)

theorem walkAt_onlyUndefined (t : SymbolTable) (missing : Fault) : ∀ (i : Nat) (ns : List Node),
    (∀ n ∈ ns, n.Conforms) → i < ns.length → OnlyUndefined (t.walkAt missing i ns)
  | _, [], _, hi => nomatch hi
  | 0, n :: _, hall, _ => walk_onlyUndefined t n (hall n List.mem_cons_self)
  | i + 1, _ :: ns, hall, hi =>
    walkAt_onlyUndefined t missing i ns (fun n hn => hall n (List.mem_cons_of_mem _ hn))
      (Nat.lt_of_succ_lt_succ hi)

theorem walkRest_onlyUndefined (t : SymbolTable) : ∀ (i : Nat) (ns : List Node),
    (∀ n ∈ ns, n.Conforms) → OnlyUndefined (t.walkRest i ns)
  | _, [], _ => by
    simp only [walkRest]
    exact .pure _
  | 0, n :: _, hall => by
    simp only [walkRest]
    exact walk_onlyUndefined t n (hall n List.mem_cons_self)
  | i + 1, _ :: ns, hall => by
    simp only [walkRest]
    exact walkRest_onlyUndefined t i ns fun n hn => hall n (List.mem_cons_of_mem _ hn)

end

end SymbolTable

/-! ## Evaluation -/

/-- A run coupled with itself: it comes to trees that conform only, and its faults are not
those of a malformed tree. -/
def conforming : Coupling where
  node n n' := n = n' ∧ n.Conforms ∧ n.tag.isEvaluable = true
  shared _ := True
  apart _ _ _ := True
  console := Eq
  fault f g := f = g ∧ f.code ≠ .malformedTree

theorem Tag.code_of_raises {tag : Tag} {cause : Cause} (htag : tag.isEvaluable = true)
    (h : tag.raises cause = true) : cause.code ≠ .malformedTree := by
  intro hcode
  unfold raises at h
  split at h <;> first | cases h; done | cases htag; done | cases hcode

theorem Tag.code_of_raisesAt {tag : Tag} {i : Nat} {cause : Cause}
    (h : tag.raisesAt i cause = true) : cause.code ≠ .malformedTree := by
  intro hcode
  unfold raisesAt at h
  split at h <;> first | cases h; done | cases hcode

/-- Children with evaluable tags are related to themselves. -/
theorem conforming_children {n : Node} (h : n.Conforms)
    (htags : ∀ c ∈ n.children, c.tag.isEvaluable = true) :
    n.children.Forall₂ conforming.node n.children :=
  List.forall₂_same.2 fun c hc => ⟨rfl, h.child hc, htags c hc⟩

theorem lawful_conforming : conforming.Lawful where
  tag h := by rw [h.1]
  text h := by rw [h.1]
  child {n n' i use} h hi := by
    obtain ⟨rfl, hn, -⟩ := h
    obtain ⟨tag, htag, hevaluated, harguments⟩ := hn.takes.child hi
    rw [List.getElem?_map] at htag
    obtain ⟨c, hc, rfl⟩ := Option.map_eq_some_iff.1 htag
    have hconforms : c.Conforms := hn.child (List.mem_of_getElem? hc)
    refine .present c c hc hc ?_
    cases use with
    | evaluated => exact ⟨rfl, hconforms, hevaluated rfl⟩
    | named | parameters => rfl
    | arguments =>
        -- The list itself is never evaluated; its children are.
        apply conforming_children hconforms
        intro a ha
        have htakes := hconforms.takes
        rw [harguments rfl] at htakes
        exact Tag.isEvaluable_of_isExpression (htakes a.tag (List.mem_map_of_mem ha))
  statements {n n'} h hn := by
    obtain ⟨rfl, hconforms, -⟩ := h
    apply conforming_children hconforms
    intro s hs
    have htakes := hconforms.takes
    have htag : s.tag = .statement := by
      obtain hn | hn := hn
      · rw [hn] at htakes
        exact htakes.2 s.tag (List.mem_map_of_mem hs)
      · rw [hn] at htakes
        exact htakes.2 s.tag (List.mem_map_of_mem hs)
    rw [htag]
    rfl
  alternative {n n'} h hn := by
    obtain ⟨rfl, hconforms, -⟩ := h
    have htakes := hconforms.takes
    rw [hn] at htakes
    obtain ⟨test, htags, -⟩ := htakes
    cases hc : n.children[2]? with
    | none => exact .none
    | some c =>
        refine .some ⟨rfl, hconforms.child (List.mem_of_getElem? hc), ?_⟩
        have htag : (n.children.map Node.tag)[2]? = some c.tag := by
          rw [List.getElem?_map, hc]
          rfl
        obtain htags | htags := htags
        · rw [htags] at htag
          cases htag
        · rw [htags] at htag
          rw [← Option.some.inj htag]
          rfl
  fault h hcause := by
    obtain ⟨rfl, -, htag⟩ := h
    exact ⟨rfl, Tag.code_of_raises htag hcause⟩
  childFault h hcause hc hc' := by
    obtain ⟨rfl, -⟩ := h
    cases hc.symm.trans hc'
    exact ⟨rfl, Tag.code_of_raisesAt hcause⟩
  write text h := by
    cases h
    exact ⟨rfl, rfl⟩
  readWord h := by
    cases h
    exact ⟨rfl, rfl⟩

section Sessions

variable {root : Node} {m : Machine}

/-- What a run has in common with itself, it has along a whole session: with the functions
that earlier calls left behind, and with any consoles. -/
theorem Session.machines {C : Coupling} (h : Session root m) (hC : C.Lawful)
    (hroot : C.node root root) (hshared : ∀ id, C.shared id) (hconsole : ∀ c, C.console c c) :
    C.Machines m m := by
  have hexecute : ∀ fuel, C.Relates C.Values (execute fuel root) (execute fuel root) :=
    fun fuel => hC.eval fuel hroot (hshared _)
  induction h with
  | start console => exact ⟨.initial hshared, hconsole console⟩
  | @returned fuel _ _ _ _ call ih =>
      have hfinal := (hexecute fuel).final ih
      unfold Exec.final at hfinal
      rwa [call] at hfinal
  | @stopped fuel _ _ _ _ call ih =>
      have hfinal := (hexecute fuel).final ih
      unfold Exec.final at hfinal
      rwa [call] at hfinal
  | redirected _ console ih => exact ⟨ih.store, hconsole console⟩

theorem relates_execute (hroot : root.Conforms) (htag : root.tag = .program) (fuel : Nat) :
    conforming.Relates conforming.Values (execute fuel root) (execute fuel root) := by
  have hnode : conforming.node root root := ⟨rfl, hroot, by rw [htag]; rfl⟩
  exact lawful_conforming.eval fuel hnode trivial

/-- Every call of a session leaves functions behind whose bodies conform. -/
theorem Session.conforming (h : Session root m) (hroot : root.Conforms)
    (htag : root.tag = .program) : ScopeLang.conforming.Machines m m := by
  have hnode : ScopeLang.conforming.node root root := ⟨rfl, hroot, by rw [htag]; rfl⟩
  exact h.machines lawful_conforming hnode (fun _ => trivial) fun _ => rfl

/-- No call of a session ends with the fault of a malformed tree. -/
theorem Session.code_ne_malformedTree (h : Session root m) (hroot : root.Conforms)
    (htag : root.tag = .program) {fuel : Nat} {f : Fault} {m' : Machine}
    (hcall : execute fuel root m = .error (.fault f) m') : f.code ≠ .malformedTree := by
  have hends := relates_execute hroot htag fuel m m (h.conforming hroot htag)
  rw [hcall] at hends
  cases hends with
  | stops stop _ =>
      cases stop with
      | fault same => exact same.2

end Sessions

/-- Whatever tokens the parser accepts, its tree has the children that the table lists, node
by node. So the tree has a source text, resolution fails for undefined names only, and no
call of an interpreter ends with the fault of a malformed tree, also if no name was resolved. -/
theorem parsed_never_malformed {tokens : List Token} {t : Node} (h : parseTokens tokens = .ok t) :
    (∀ path p, t.at? path = some p → p.tag.Takes (p.children.map Node.tag)) ∧
    (∃ s, t.source = .ok s) ∧
    (∀ f, analyze t = .error f → f.code = .undefinedName) ∧
    ∀ m, Session t m → ∀ fuel f m',
      execute fuel t m = .error (.fault f) m' → f.code ≠ .malformedTree := by
  have hconforms := conforms_of_parseTokens h
  refine ⟨hconforms, Node.source_returns hconforms, ?_, ?_⟩
  · exact SymbolTable.walk_onlyUndefined .initial t hconforms
  · intro m hsession fuel f m' hcall
    exact hsession.code_ne_malformedTree hconforms (tag_of_parseTokens h) hcall

/-- A name that is not declared, an end of input and more behind it: the parser takes what is
before the end, and the fault of running it is that the name is undefined. -/
theorem parsed_never_malformed_undeclared :
    let tokens : List Token := [⟨.name "x", ⟨1, 1⟩⟩, ⟨.mark .semicolon, ⟨1, 2⟩⟩,
      ⟨.endOfInput, ⟨1, 3⟩⟩, ⟨.name "y", ⟨1, 4⟩⟩]
    let t := Node.inner .program ⟨1, 1⟩ [.inner .statement ⟨1, 1⟩ [.leaf .name "x" ⟨1, 1⟩]]
    parseTokens tokens = .ok t ∧ (∃ s, t.source = .ok s) ∧
      (∀ f, analyze t = .error f → f.code = .undefinedName) ∧
      ∃ f m, execute 4 t (.initial {}) = .error (.fault f) m ∧ f.code = .undefinedName ∧
        f.code ≠ .malformedTree := by
  intro tokens t
  have hparse : parseTokens tokens = .ok t := rfl
  have hrun : (Program.run 4 ⟨t, .initial⟩ {}).ending = .fault ⟨.undefinedName "x", ⟨1, 1⟩⟩ := by
    decide +kernel
  obtain ⟨-, hsource, hanalyze, hcalls⟩ := parsed_never_malformed hparse
  refine ⟨hparse, hsource, hanalyze, ?_⟩
  unfold Program.run at hrun
  split at hrun
  next => cases hrun
  next f m hcall =>
    cases hrun
    exact ⟨_, m, hcall, rfl, hcalls _ (.start {}) 4 _ m hcall⟩
  next => cases hrun

end ScopeLang
