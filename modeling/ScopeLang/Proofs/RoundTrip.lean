-- SUMMARY: A well-formed tree is found again, up to places, when its source text is parsed.
import ScopeLang.Proofs.ParseProgram
import ScopeLang.Proofs.Places

/-! # Writing and parsing

The source text of a well-formed tree derives the tree, so it is what parsing the
text finds. The source text does not depend on places either, so it is what the
tree that is found is written as.
-/

namespace ScopeLang

open Grammar Grammar.Derivation

/-! ## Well-formed trees have source texts -/

/-- The text derives the statements, up to places. -/
def WritesStatements (s : String) (statements : List Node) : Prop :=
  Writes anyByte s (tokens (s := .many .statement))
    fun d => d.tree.map Node.unplaced = statements.map Node.unplaced

/-- What an expression is written as where it is nested, and as a statement. The two
differ in an assignment, which needs no parentheses as a statement. -/
structure ExpressionText (n : Node) : Prop where
  nested : ∃ s, n.expressionSource = .ok s ∧ WritesNode endsWord s .primary n
  alone : ∃ s, (∀ depth, n.constructSource depth = .ok (Node.indent depth ++ s ++ ";\n")) ∧
    WritesNode endsWord s .expression n

/-- A node has a source text for its part in a program, and the text derives it. -/
def HasText : Role → Node → Prop
  | .expression, n => ExpressionText n
  | .parameter, n => WritesNode endsWord n.text .parameter n
  | .construct, n =>
    ∀ depth, ∃ s, n.constructSource depth = .ok s ∧ WritesNode anyByte s .construct n
  | .alternative, n =>
    ∀ depth, ∃ s, Node.alternativeSourceAt depth 0 [n] = .ok s ∧
      Writes anyByte s (tokens (s := .alternative))
        fun d => d.tree.map Node.unplaced = [n].map Node.unplaced
  | .statement, n =>
    ∀ depth, ∃ s, n.statementSource depth = .ok s ∧ WritesNode anyByte s .statement n
  | .block, n => ∃ place statements, n = .inner .block place statements ∧
    ∀ depth, ∃ s, Node.statementSources depth statements = .ok s ∧ WritesStatements s statements
  | .program, n => ∃ s, n.source = .ok s ∧ WritesNode anyByte s .program n

/-- The tags of what a statement writes in another way than an expression. -/
def isConstruct : Tag → Bool
  | .conditional | .loop | .function | .definition | .assignment => true
  | _ => false

/-- What is no construct of its own is written in one way. -/
theorem ExpressionText.of_nested {n : Node} {s : String} (htag : isConstruct n.tag = false)
    (hsource : n.expressionSource = .ok s) (h : WritesNode endsWord s .primary n) :
    ExpressionText n := by
  refine ⟨⟨s, hsource, h⟩, s, ?_, h.expression⟩
  intro depth
  obtain ⟨tag, text, span, children⟩ := n
  cases tag with
  | conditional | loop | function | definition | assignment => cases htag
  | _ =>
      simp only [Node.constructSource, hsource]
      rfl

/-- The texts of some expressions. -/
theorem exists_expressionSources {ns : List Node} (h : ∀ n ∈ ns, ExpressionText n) :
    ∃ ss, Node.expressionSources ns = .ok ss ∧
      ns.Forall₂ (fun n s => WritesNode endsWord s .expression n) ss := by
  induction ns with
  | nil => exact ⟨[], by rw [Node.expressionSources]; rfl, .nil⟩
  | cons n ns ih =>
      obtain ⟨s, hs, hwrites⟩ := (h n (by simp)).nested
      obtain ⟨ss, hss, hall⟩ := ih fun x hx => h x (by simp [hx])
      refine ⟨s :: ss, ?_, .cons hwrites.expression hall⟩
      rw [Node.expressionSources, hs, hss]
      rfl

/-- The texts of some statements. -/
theorem exists_statementSources {ns : List Node} (hsome : ns ≠ [])
    (h : ∀ n ∈ ns, HasText .statement n) (depth : Nat) :
    ∃ s, Node.statementSources depth ns = .ok s ∧ WritesStatements s ns := by
  induction ns with
  | nil => exact absurd rfl hsome
  | cons n ns ih =>
      obtain ⟨s, hs, hwrites⟩ := h n (by simp) depth
      cases ns with
      | nil =>
          refine ⟨s, ?_, hwrites.map fun d hd => ⟨.last _ d, rfl, by simp [tree, hd]⟩⟩
          rw [Node.statementSources, hs, Node.statementSources]
          simp [bind, Except.bind, pure, Except.pure]
      | cons n' ns =>
          obtain ⟨s', hs', hwrites'⟩ := ih (by simp) fun x hx => h x (by simp [hx])
          refine ⟨s ++ s', ?_, (hwrites.appendAny hwrites').map ?_⟩
          · rw [Node.statementSources, hs, hs']
            rfl
          · rintro ⟨d, d'⟩ ⟨hd, hd'⟩
            exact ⟨.more _ d d', rfl, by simp [tree, hd, hd']⟩

theorem WellFormed.hasText {role : Role} {n : Node} (h : WellFormed .lexical role n) :
    HasText role n := by
  induction h with
  | @number digits place admitted =>
      have hlexeme : Writes endsWord digits _ _ := .lexeme (.digits admitted)
      refine .of_nested rfl (by rw [Node.leaf, Node.expressionSource]; rfl) (hlexeme.map ?_)
      intro place' _
      exact ⟨.number digits place', rfl, rfl⟩
  | @text content place =>
      have hlexeme : Writes endsWord (Text.Quoted.literal content) _ _ := .lexeme (.literal content)
      refine .of_nested rfl (by rw [Node.leaf, Node.expressionSource]; rfl) (hlexeme.map ?_)
      intro place' _
      exact ⟨.text content place', rfl, rfl⟩
  | @name spelling place admitted =>
      refine .of_nested rfl (by rw [Node.leaf, Node.expressionSource]; rfl)
        ((writes_name admitted).map ?_)
      intro place' _
      exact ⟨.name spelling place', rfl, rfl⟩
  | @binary op place left right _ _ ihleft ihright =>
      obtain ⟨l, hl, hleft⟩ := ihleft.nested
      obtain ⟨r, hr, hright⟩ := ihright.nested
      have hbinary : WritesNode endsWord (l ++ " " ++ op.spelling ++ " " ++ r) .expression
          (.inner (.binary op) place [left, right]) := writesNode_binary hleft hright
      have hgroup : WritesNode endsWord _ .primary _ := hbinary.group
      simp only [← String.append_assoc] at hgroup
      refine .of_nested rfl ?_ hgroup
      simp only [Node.inner, Node.expressionSource, Node.expressionSourceAt, hl, hr]
      rfl
  | @assignment target place equals value admitted _ ihvalue =>
      obtain ⟨v, hv, hvalue⟩ := ihvalue.nested
      have hassignment : WritesNode endsWord (target ++ " = " ++ v) .expression
          (.inner .assignment equals [.leaf .name target place, value]) :=
        writesNode_assignment admitted hvalue
      refine ⟨⟨_, ?_, hassignment.group⟩, _, ?_, hassignment⟩
      · simp only [Node.inner, Node.expressionSource, Node.assignmentSource,
          Node.expressionSourceAt, hv]
        rfl
      · intro depth
        simp only [Node.inner, Node.constructSource, Node.assignmentSource,
          Node.expressionSourceAt, hv]
        rfl
  | @call callee place opening arguments admitted _ iharguments =>
      obtain ⟨ss, hss, hall⟩ := exists_expressionSources iharguments
      refine .of_nested rfl ?_ (writesNode_call admitted hall)
      simp only [Node.inner, Node.expressionSource, Node.argumentSources, hss]
      rfl
  | @parameter spelling place admitted =>
      refine (writes_name admitted).map ?_
      intro place' _
      exact ⟨.parameter spelling place', rfl, rfl⟩
  | @evaluation e _ ih =>
      obtain ⟨s, hs, hwrites⟩ := ih.alone
      exact fun depth => ⟨_, hs depth, writesNode_evaluation (scans_indent depth) hwrites⟩
  | @definition target place keyword admitted =>
      intro depth
      exact ⟨_, rfl, writesNode_definition (scans_indent depth) admitted⟩
  | @conditional keyword test body _ _ ihtest ihbody =>
      intro depth
      obtain ⟨place, statements, rfl, hstatements⟩ := ihbody
      obtain ⟨s, hs, htest⟩ := ihtest.nested
      obtain ⟨b, hb, hbody⟩ := hstatements (depth + 1)
      have hnone : Writes anyByte "" (tokens (s := .alternative))
          (fun d => d.tree.map Node.unplaced = List.map Node.unplaced []) :=
        ⟨[], .nil, fun ts hts => ⟨.noAlternative, (List.map_eq_nil_iff.1 hts).symm, rfl⟩⟩
      refine ⟨_, ?_, writesNode_conditional (scans_indent depth) htest.expression hbody hnone⟩
      simp only [Node.inner, Node.constructSource, Node.expressionSourceAt, Node.blockSourceAt,
        Node.alternativeSourceAt, hs, hb]
      rfl
  | @conditionalElse keyword test body otherwise _ _ _ ihtest ihbody ihotherwise =>
      intro depth
      obtain ⟨place, statements, rfl, hstatements⟩ := ihbody
      obtain ⟨s, hs, htest⟩ := ihtest.nested
      obtain ⟨b, hb, hbody⟩ := hstatements (depth + 1)
      obtain ⟨a, ha, hotherwise⟩ := ihotherwise depth
      refine ⟨_, ?_, writesNode_conditional (scans_indent depth) htest.expression hbody hotherwise⟩
      simp only [Node.inner, Node.constructSource, Node.expressionSourceAt, Node.blockSourceAt,
        Node.alternativeSourceAt, hs, hb, ha]
      rfl
  | @loop keyword test body _ _ ihtest ihbody =>
      intro depth
      obtain ⟨place, statements, rfl, hstatements⟩ := ihbody
      obtain ⟨s, hs, htest⟩ := ihtest.nested
      obtain ⟨b, hb, hbody⟩ := hstatements (depth + 1)
      refine ⟨_, ?_, writesNode_loop (scans_indent depth) htest.expression hbody⟩
      simp only [Node.inner, Node.constructSource, Node.expressionSourceAt, Node.blockSourceAt,
        hs, hb]
      rfl
  | @function spelling keyword opening parameters body admitted _ _ ihparameters ihbody =>
      intro depth
      obtain ⟨place, statements, rfl, hstatements⟩ := ihbody
      obtain ⟨b, hb, hbody⟩ := hstatements (depth + 1)
      refine ⟨_, ?_, writesNode_function (scans_indent depth) admitted ihparameters hbody⟩
      simp only [Node.inner, Node.constructSource, Node.blockSourceAt, hb]
      rfl
  | @alternative place body _ ihbody =>
      intro depth
      obtain ⟨place', statements, rfl, hstatements⟩ := ihbody
      obtain ⟨b, hb, hbody⟩ := hstatements (depth + 1)
      refine ⟨_, ?_, writes_alternative (scans_indent depth) hbody⟩
      simp only [Node.inner, Node.alternativeSourceAt, Node.blockSourceAt, hb]
      rfl
  | @statement place inside _ ih =>
      intro depth
      obtain ⟨s, hs, hwrites⟩ := ih depth
      refine ⟨s, ?_, hwrites.map ?_⟩
      · rw [Node.inner, Node.statementSource, Node.firstConstructSource, hs]
      · intro d hd
        refine ⟨.statement d, rfl, ?_⟩
        simp [tree, Node.inner, Node.unplaced, hd]
  | @block opening statements hsome _ ih =>
      exact ⟨opening, statements, rfl, exists_statementSources hsome ih⟩
  | @program place statements hsome _ ih =>
      obtain ⟨s, hs, hwrites⟩ := exists_statementSources hsome ih 0
      refine ⟨s, hs, hwrites.map ?_⟩
      intro d hd
      refine ⟨.program d, rfl, ?_⟩
      simp [tree, Node.inner, Node.unplaced, hd]

/-! ## Places are not written -/

/-- A tree and the same tree at other places are written alike. -/
theorem Node.source_of_unplaced_eq {m n : Node} (h : m.unplaced = n.unplaced) {s : String}
    (hs : n.source = .ok s) : m.source = .ok s := by
  have hok : unlocated m.source = .ok s := by
    rw [← source_unplaced m, h, source_unplaced n, hs]
    rfl
  unfold unlocated at hok
  cases hm : m.source with
  | error f =>
      rw [hm] at hok
      cases hok
  | ok s' =>
      rw [hm] at hok
      cases hok
      rfl

/-! ## Round trips -/

/-- Parsing finds the program that a text derives. -/
theorem WritesNode.parse {s : String} {n : Node} (h : WritesNode anyByte s .program n) :
    ∃ t, ScopeLang.parse s = .ok t ∧ t.unplaced = n.unplaced := by
  obtain ⟨ls, hscans, hderives⟩ := h
  obtain ⟨ts, hts, hscan⟩ := hscans .start [] fun _ hb => by cases hb
  obtain ⟨d, rfl, hd⟩ := hderives ts hts
  let stop : Token := ⟨.endOfInput, Span.start.after (Text.bytes s)⟩
  have htokenize : tokenize s = .ok (d.tokens ++ [stop]) := by
    rw [List.append_nil, scan] at hscan
    exact hscan
  have hparse : parseTokens (d.tokens ++ [stop]) = .ok d.tree :=
    (parseTokens_eq_ok_iff d.endFree_tokens (ofTokens_append_end d.tokens rfl)).2 ⟨d, rfl, rfl⟩
  refine ⟨d.tree, ?_, hd⟩
  rw [ScopeLang.parse, htokenize]
  exact hparse

/-- What parsing a text yields is well formed, over every vocabulary that has the texts
of the lexical one. -/
theorem wellFormed_of_parse {v : Vocabulary} {s : String} {t : Node}
    (hv : ∀ l, Vocabulary.lexical.Admits l → v.Admits l) (h : parse s = .ok t) :
    WellFormed v .program t := by
  rw [parse] at h
  cases htokenize : tokenize s with
  | error f =>
      rw [htokenize] at h
      cases h
  | ok tokens =>
      rw [htokenize] at h
      obtain ⟨ts, stop, rfl, hstop, hlexical⟩ := exists_tokens_of_scan htokenize
      have hfree : EndFree ts := fun x hx => (hlexical x hx).1
      obtain ⟨d, rfl, rfl⟩ :=
        (parseTokens_eq_ok_iff hfree (ofTokens_append_end ts hstop)).1 h
      exact d.wellFormed_tree fun x hx => hv x.lexeme (hlexical x hx).2

/-- A well-formed program has a source text, and parsing the text yields the program
again up to places, which is written as the same text. -/
theorem WellFormed.exists_source {t : Node} (h : WellFormed .lexical .program t) :
    ∃ s t', t.source = .ok s ∧ parse s = .ok t' ∧ t'.unplaced = t.unplaced ∧
      t'.source = .ok s := by
  obtain ⟨s, hs, hwrites⟩ := h.hasText
  obtain ⟨t', hparse, hsame⟩ := hwrites.parse
  exact ⟨s, t', hs, hparse, hsame, Node.source_of_unplaced_eq hsame hs⟩

/-- Writing and then parsing is the identity up to places on well-formed programs.
Every program that parsing yields is one of them, so parsing, writing and parsing
yields the same tree up to places, and writing that tree yields the same text. -/
theorem source_round_trip :
    (∀ t, WellFormed .lexical .program t →
      ∃ s t', t.source = .ok s ∧ parse s = .ok t' ∧ t'.unplaced = t.unplaced) ∧
    (∀ s t, parse s = .ok t → WellFormed .lexical .program t) ∧
    (∀ s t, parse s = .ok t → ∃ s' t', t.source = .ok s' ∧ parse s' = .ok t' ∧
      t'.unplaced = t.unplaced ∧ t'.source = .ok s') := by
  have hparsed : ∀ s t, parse s = .ok t → WellFormed .lexical .program t :=
    fun s t h => wellFormed_of_parse (fun _ hl => hl) h
  refine ⟨?_, hparsed, fun s t h => (hparsed s t h).exists_source⟩
  intro t ht
  obtain ⟨s, t', hs, hparse, hsame, -⟩ := ht.exists_source
  exact ⟨s, t', hs, hparse, hsame⟩

/-- A text with quotes, line ends and characters beyond ASCII is found again. -/
theorem source_round_trip_text :
    let t := Node.inner .program .nowhere [.inner .statement .nowhere
      [.inner .assignment .nowhere
        [.leaf .name "x" .nowhere, .leaf .text "\"\\ \n\té" .nowhere]]]
    WellFormed .lexical .program t ∧
      ∃ s t', t.source = .ok s ∧ parse s = .ok t' ∧ t'.unplaced = t.unplaced := by
  intro t
  have hname : Vocabulary.lexical.name "x" := ⟨by decide, by intro k; cases k <;> decide⟩
  have ht : WellFormed .lexical .program t := by
    refine .program (by simp) ?_
    simp only [List.mem_singleton, forall_eq]
    exact .statement (.evaluation (.assignment hname .text))
  exact ⟨ht, source_round_trip.1 t ht⟩

end ScopeLang
