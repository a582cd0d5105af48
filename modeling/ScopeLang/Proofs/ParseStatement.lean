-- SUMMARY: The parsers for blocks, statements and programs read their symbols of the grammar.
import ScopeLang.Proofs.ParseExpression

/-! # Statements and the grammar

Every statement tells from its first token which construct it is, so the
alternatives of this part are settled by one token of lookahead. Lists of
statements have no separators: they end where the lexeme comes that closes
them, which no statement starts with.
-/

namespace ScopeLang.Grammar

open ScopeLang.Grammar.Derivation

/-! ## Lists of statements -/

/-- The lexemes that `stops` picks out can end a list of statements. -/
structure EndsStatements (stops : Lexeme → Bool) : Prop where
  noStart : ∀ l, stops l = true → startsStatement l = false
  follows : ∀ l, stops l = true → followsStatement l = true

theorem endsStatements_beq_mark : EndsStatements (· == .mark .closeBrace) := by
  constructor <;> intro l hl <;> rw [eq_of_beq hl] <;> rfl

theorem endsStatements_beq_endOfInput : EndsStatements (· == .endOfInput) := by
  constructor <;> intro l hl <;> rw [eq_of_beq hl] <;> rfl

/-- What a statement starts with can follow another one. -/
theorem followsStatement_of_startsStatement {l : Lexeme} (h : startsStatement l = true) :
    followsStatement l = true := by
  rw [followsStatement, bne_iff_ne]
  rintro rfl
  cases h

section Statements

variable {n : Nat} {s : Token.Stream} {stops follow : Lexeme → Bool} {done : Parser Bool}
  {nested : Parser Node}

/-- What comes after a statement of a list: the rest of the list, or what ends it. -/
theorem reads_afterStatement (hstops : EndsStatements stops)
    (hdone : done s = .ok (stops s.peek.lexeme, s)) (first : Node) (budget : Nat)
    (hmore : Reads stops tokens (tree (s := .many .statement))
      (Parser.itemsUntil done nested budget) s) :
    Reads stops
      (fun o : Option (Derivation (.many .statement)) => o.elim [] tokens)
      (fun o => first :: o.elim [] tree)
      (do
        if ← done then
          return [first]
        else
          return first :: (← Parser.itemsUntil done nested budget)) s := by
  have hstart : ∀ {d : Derivation (.many .statement)} {w},
      Fits stops d.tokens (s.peek :: w) → stops s.peek.lexeme ≠ true := by
    intro d w hfits hs
    have hstarts := starts_of_fits rfl hfits
    exact absurd (hstarts.symm.trans (hstops.noStart _ hs)) nofun
  cases h : stops s.peek.lexeme with
  | true =>
      rw [h] at hdone
      refine .accepts none s (Reads.bind_ok hdone) (.refl s) ?_
      rintro (_ | d) hfits
      · rfl
      · exact absurd h (hstart hfits)
  | false =>
      rw [h] at hdone
      have hreads : Reads stops tokens
          (fun d : Derivation (.many .statement) => first :: d.tree)
          (Parser.itemsUntil done nested budget >>= fun rest => pure (first :: rest)) s :=
        hmore.andThen fun _ _ _ => rfl
      refine Reads.alternativeByPeek (hreads.congr (Reads.bind_ok hdone)) some ?_ ?_ ?_
      · intro d
        rfl
      · intro d
        rfl
      · rintro (_ | d) w hfits
        · rw [Option.elim_none, fits_nil_cons, h] at hfits
          cases hfits
        · exact ⟨d, rfl⟩

/-- Statements up to a lexeme that ends them. -/
theorem reads_itemsUntil (hstops : EndsStatements stops)
    (hdone : ∀ s, done s = .ok (stops s.peek.lexeme, s))
    (hnested : ReadsUpTo n followsStatement (.one .statement) nested) (hs : s.Closed)
    (budget : Nat) (hlen : s.ahead.length ≤ budget) (hn : budget ≤ n) :
    Reads stops tokens (tree (s := .many .statement))
      (Parser.itemsUntil done nested budget) s := by
  induction budget generalizing s with
  | zero =>
      have hnil : s.ahead = [] := List.length_eq_zero_iff.1 (Nat.le_zero.1 hlen)
      obtain ⟨f, run, blames⟩ := exists_refusal hnil (hnested s hs (Nat.le_trans hlen hn))
      refine reads_of_refusal rfl (Reads.bind_error run) blames ?_
      rw [peek_of_ahead_nil hs hnil]
      exact Symbol.starts_endOfInput _
  | succ budget ih =>
      have hreads : Reads stops _ _ (Parser.itemsUntil done nested (budget + 1)) s :=
        .bind (fun first (o : Option (Derivation (.many .statement))) =>
            first.tree :: o.elim [] tree)
          (hnested s hs (Nat.le_trans hlen hn))
          (fun first mid hmid => by
            have hmidlen := hmid.length_lt first.length_tokens_pos
            refine reads_afterStatement hstops (hdone mid) first.tree budget ?_
            exact ih (hmid.closed hs) (by omega) (by omega))
          (by
            rintro (_ | d) r hr
            · exact hr.imp hstops.follows
            · obtain ⟨t, ts, ht, hstarts⟩ := d.exists_head rfl
              rw [Option.elim_some, ht]
              exact allows_cons.2 (followsStatement_of_startsStatement hstarts))
      refine hreads.map (fun x => x.2.elim (.last _ x.1) (.more _ x.1)) ?_ ?_ ?_
      · rintro ⟨first, _ | rest⟩
        · exact (List.append_nil _).symm
        · rfl
      · rintro ⟨first, _ | rest⟩ <;> rfl
      · intro d
        cases d with
        | last _ first => exact ⟨(first, none), rfl⟩
        | more _ first rest => exact ⟨(first, some rest), rfl⟩

/-- Statements are taken until the lexeme that ends them comes next. -/
theorem stops_of_itemsUntil (stops : Lexeme → Bool)
    (hdone : ∀ s, done s = .ok (stops s.peek.lexeme, s))
    (hnested : ReadsUpTo n followsStatement (.one .statement) nested) (hs : s.Closed)
    {budget : Nat} (hlen : s.ahead.length ≤ budget) (hn : budget ≤ n) {nodes : List Node}
    {rest : Token.Stream} (run : Parser.itemsUntil done nested budget s = .ok (nodes, rest)) :
    stops rest.peek.lexeme = true := by
  induction budget generalizing s nodes with
  | zero =>
      have hnil : s.ahead = [] := List.length_eq_zero_iff.1 (Nat.le_zero.1 hlen)
      obtain ⟨f, hrun, -⟩ := exists_refusal hnil (hnested s hs (Nat.le_trans hlen hn))
      have herror := run.symm.trans (Reads.bind_error hrun)
      cases herror
  | succ budget ih =>
      cases hnested s hs (Nat.le_trans hlen hn) with
      | refuses f taken mid hrun =>
          have herror := run.symm.trans (Reads.bind_error hrun)
          cases herror
      | accepts first mid hrun after =>
          have hmid := run.symm.trans ((Reads.bind_ok hrun).trans (Reads.bind_ok (hdone mid)))
          cases h : stops mid.peek.lexeme with
          | true =>
              rw [h] at hmid
              cases hmid
              exact h
          | false =>
              rw [h] at hmid
              have hmidlen := after.length_lt first.length_tokens_pos
              cases hmore : Parser.itemsUntil done nested budget mid with
              | error f =>
                  have herror := hmid.trans (Reads.bind_error hmore)
                  cases herror
              | ok result =>
                  have hrest := hmid.trans (Reads.bind_ok hmore)
                  cases hrest
                  exact ih (after.closed hs) (by omega) (by omega) hmore

/-- Statements in braces. -/
theorem reads_block (hnested : ReadsUpTo n followsStatement (.one .statement) nested) :
    ReadsUpTo (n + 1) follow (.one .block) (Parser.block nested n) := by
  intro s hs hlen
  have hreads : Reads follow _ _ (Parser.block nested n) s :=
    .expectThen
      (fun opening (x : Derivation (.many .statement) × Span) =>
        Node.inner .block opening x.1.tree)
      hs (by simp)
      fun opening mid hmid =>
        have hmidlen := hmid.length_lt (by simp)
        .thenExpect
          (reads_itemsUntil endsStatements_beq_mark (fun _ => rfl) hnested (hmid.closed hs) n
            (by omega) (Nat.le_refl n))
          (hmid.closed hs) (by simp) rfl fun statements => Node.inner .block opening statements
  refine hreads.map (fun x => .block x.1 x.2.1 x.2.2) (fun _ => rfl) (fun _ => rfl) ?_
  intro d
  cases d with
  | block opening body closing => exact ⟨(opening, body, closing), rfl⟩

/-- A condition, whatever follows it. -/
theorem reads_condition : ReadsUpTo (n + 1) follow (.one .condition) (Parser.condition n) := by
  intro s hs hlen
  have hreads : Reads follow _ _ (Parser.condition n) s :=
    reads_inParentheses (reads_expression n) hs hlen
  refine hreads.map (fun x => .condition x.1 x.2.1 x.2.2) (fun _ => rfl) (fun _ => rfl) ?_
  intro d
  cases d with
  | condition opening inside closing => exact ⟨(opening, inside, closing), rfl⟩

/-! ## Constructs -/

/-- A definition with its semicolon. -/
theorem reads_definition (hs : s.Closed) :
    Reads follow
      (fun x : (Span × String × Span) × Span =>
        tokens (.definition x.1.1 x.1.2.1 x.1.2.2 x.2))
      (fun x => tree (.definition x.1.1 x.1.2.1 x.1.2.2 x.2))
      (Parser.terminated Parser.definition) s := by
  have hreads : Reads (fun _ => true) _ _ Parser.definition s :=
    .expectThen
      (fun keyword (x : String × Span) =>
        Node.inner .definition keyword [.leaf .name x.1 x.2])
      hs (by simp)
      fun keyword mid hmid => .andThen (.expectName (hmid.closed hs)) fun _ _ _ => rfl
  exact hreads.thenExpect hs (by simp) rfl id

/-- What comes after the block of a conditional. -/
theorem reads_alternative (hnested : ReadsUpTo n followsStatement (.one .statement) nested)
    (keyword : Span) (test consequence : Node) (hs : s.Closed) (hlen : s.ahead.length ≤ n + 1) :
    Reads followsStatement tokens
      (fun d : Derivation .alternative =>
        Node.inner .conditional keyword (test :: consequence :: d.tree))
      (do
        if ← Parser.sees (.keyword .alternative) then
          let otherwise ← Parser.next
          let body ← Parser.block nested n
          return .inner .conditional keyword
            [test, consequence, .inner .alternative otherwise.span [body]]
        else
          return .inner .conditional keyword [test, consequence]) s := by
  by_cases h : s.peek.lexeme = .keyword .alternative
  · have hreads : Reads followsStatement _ _
        (Parser.expect (.keyword .alternative) >>= fun otherwise =>
          Parser.block nested n >>= fun body => pure (Node.inner .conditional keyword
            [test, consequence, .inner .alternative otherwise.span [body]])) s :=
      .expectThen
        (fun otherwise (d : Derivation (.one .block)) => Node.inner .conditional keyword
          [test, consequence, .inner .alternative otherwise [d.tree]])
        hs (by simp)
        fun otherwise mid hmid => .andThen
          (reads_block hnested mid (hmid.closed hs) (Nat.le_trans hmid.length_le hlen))
          fun _ _ _ => rfl
    refine (hreads.congr ?_).alternativeByPeek (fun x => .alternative x.1 x.2)
      (fun _ => rfl) (fun _ => rfl) ?_
    · rw [sees_bind, beq_iff_eq.2 h]
      exact Reads.bind_congr (Reads.next_eq_expect h)
    · intro c w hc
      cases c with
      | noAlternative =>
          rw [tokens, fits_nil_cons, h] at hc
          cases hc
      | alternative otherwise body => exact ⟨(otherwise, body), rfl⟩
  · refine .accepts .noAlternative s ?_ (.refl s) ?_
    · rw [sees_bind, beq_eq_false_iff_ne.2 h]
      rfl
    · intro c hc
      cases c with
      | noAlternative => rfl
      | alternative otherwise body =>
          rw [tokens, tokens, List.nil_append, fits_cons_cons] at hc
          exact absurd (congrArg Token.lexeme hc.1) h

/-- A conditional, with its alternative if that comes next. -/
theorem reads_conditional (hnested : ReadsUpTo n followsStatement (.one .statement) nested)
    (hs : s.Closed) (hlen : s.ahead.length ≤ n + 1) :
    Reads followsStatement
      (fun x : Span × Derivation (.one .condition) ×
          Derivation (.one .block) × Derivation .alternative =>
        tokens (.conditional x.1 x.2.1 x.2.2.1 x.2.2.2))
      (fun x => tree (.conditional x.1 x.2.1 x.2.2.1 x.2.2.2))
      (Parser.conditional nested n) s := by
  have hreads : Reads followsStatement _ _ (Parser.conditional nested n) s :=
    .expectThen
      (fun keyword (x : Derivation (.one .condition) ×
          Derivation (.one .block) × Derivation .alternative) =>
        Node.inner .conditional keyword (x.1.tree :: x.2.1.tree :: x.2.2.tree))
      hs (by simp)
      fun keyword mid hmid =>
        have hmids := hmid.closed hs
        have hmidlen := hmid.length_le
        .bindAny
          (fun test (x : Derivation (.one .block) × Derivation .alternative) =>
            Node.inner .conditional keyword (test.tree :: x.1.tree :: x.2.tree))
          (reads_condition (n := n) mid hmids (by omega))
          fun test mid' hmid' =>
            have hmids' := hmid'.closed hmids
            have hmidlen' := hmid'.length_le
            .bindAny
              (fun body (d : Derivation .alternative) =>
                Node.inner .conditional keyword (test.tree :: body.tree :: d.tree))
              (reads_block hnested mid' hmids' (by omega))
              fun body rest hrest =>
                have hrestlen := hrest.length_le
                reads_alternative hnested keyword test.tree body.tree (hrest.closed hmids') (by omega)
  exact hreads

/-- A loop. -/
theorem reads_loop (hnested : ReadsUpTo n followsStatement (.one .statement) nested)
    (hs : s.Closed) (hlen : s.ahead.length ≤ n + 1) :
    Reads follow
      (fun x : Span × Derivation (.one .condition) × Derivation (.one .block) =>
        tokens (.loop x.1 x.2.1 x.2.2))
      (fun x => tree (.loop x.1 x.2.1 x.2.2))
      (Parser.loop nested n) s := by
  have hreads : Reads follow _ _ (Parser.loop nested n) s :=
    .expectThen
      (fun keyword (x : Derivation (.one .condition) × Derivation (.one .block)) =>
        Node.inner .loop keyword [x.1.tree, x.2.tree])
      hs (by simp)
      fun keyword mid hmid =>
        have hmids := hmid.closed hs
        have hmidlen := hmid.length_le
        .bindAny
          (fun test (body : Derivation (.one .block)) =>
            Node.inner .loop keyword [test.tree, body.tree])
          (reads_condition (n := n) mid hmids (by omega))
          fun test rest hrest =>
            have hrestlen := hrest.length_le
            .andThen (reads_block hnested rest (hrest.closed hmids) (by omega)) fun _ _ _ => rfl
  exact hreads

/-- A function. -/
theorem reads_function (hnested : ReadsUpTo n followsStatement (.one .statement) nested)
    (hs : s.Closed) (hlen : s.ahead.length ≤ n + 1) :
    Reads follow
      (fun x : Span × (String × Span) × Derivation (.parenthesized .parameter) ×
          Derivation (.one .block) =>
        tokens (.function x.1 x.2.1.1 x.2.1.2 x.2.2.1 x.2.2.2))
      (fun x => tree (.function x.1 x.2.1.1 x.2.1.2 x.2.2.1 x.2.2.2))
      (Parser.function nested n) s := by
  have hreads : Reads follow _ _ (Parser.function nested n) s :=
    .expectThen
      (fun keyword (x : (String × Span) × Derivation (.parenthesized .parameter) ×
          Derivation (.one .block)) =>
        tree (.function keyword x.1.1 x.1.2 x.2.1 x.2.2))
      hs (by simp)
      fun keyword mid hmid =>
        have hmids := hmid.closed hs
        have hmidlen := hmid.length_lt (by simp)
        .expectNameThen
          (fun name (x : Derivation (.parenthesized .parameter) × Derivation (.one .block)) =>
            tree (.function keyword name.1 name.2 x.1 x.2))
          hmids
          fun name mid' hmid' =>
            have hmids' := hmid'.closed hmids
            have hmidlen' := hmid'.length_le
            .bindAny
              (fun parameters (body : Derivation (.one .block)) =>
                tree (.function keyword name.1 name.2 parameters body))
              (reads_parenthesized rfl reads_parameter mid' hmids' (by omega))
              fun parameters rest hrest =>
                have hrestlen := hrest.length_le
                .andThen (reads_block hnested rest (hrest.closed hmids') (by omega)) fun _ _ _ => rfl
  exact hreads

/-- An expression with its semicolon. -/
theorem reads_evaluation (hs : s.Closed) (hlen : s.ahead.length ≤ n + 1) :
    Reads follow
      (fun x : Derivation (.one .expression) × Span => tokens (.evaluation x.1 x.2))
      (fun x => tree (.evaluation x.1 x.2))
      (Parser.terminated (Parser.expression (n + 1))) s :=
  (reads_expression (n + 1) s hs hlen).thenExpect hs (by simp) rfl id

/-! ## Choice of construct -/

/-- The lexemes that a construct starts with: its keyword, or what an expression starts with. -/
def leads : Derivation (.one .construct) → Lexeme → Bool
  | .definition .. => (· == .keyword .var)
  | .conditional .. => (· == .keyword .conditional)
  | .loop .. => (· == .keyword .loop)
  | .function .. => (· == .keyword .function)
  | .evaluation .. => startsExpression

theorem leads_of_fits {c : Derivation (.one .construct)} {t : Token} {w : List Token}
    (h : Fits follow c.tokens (t :: w)) : leads c t.lexeme = true := by
  cases c with
  | definition | conditional | loop | function =>
      rw [tokens, fits_cons_cons] at h
      rw [h.1]
      rfl
  | evaluation e semicolon =>
      obtain ⟨t', ts, ht, hstarts⟩ := e.exists_head rfl
      rw [tokens, ht, List.cons_append, fits_cons_cons] at h
      rw [h.1]
      exact hstarts

/-- A statement that no keyword leads is an expression. -/
theorem reads_construct_of_expression (hs : s.Closed) (hlen : s.ahead.length ≤ n + 1)
    (hlex : ∀ k, s.peek.lexeme = .keyword k → k = .alternative) :
    Reads followsStatement tokens (tree (s := .one .construct))
      (Parser.terminated (Parser.expression (n + 1))) s := by
  refine (reads_evaluation hs hlen).alternativeByPeek (fun x => .evaluation x.1 x.2)
    (fun _ => rfl) (fun _ => rfl) ?_
  intro c w hc
  have hlead := leads_of_fits hc
  cases c with
  | evaluation e semicolon => exact ⟨(e, semicolon), rfl⟩
  | definition | conditional | loop | function => cases hlex _ (eq_of_beq hlead)

/-- The first token picks the construct. -/
theorem reads_construct (hnested : ReadsUpTo n followsStatement (.one .statement) nested) :
    ReadsUpTo (n + 1) followsStatement (.one .construct) (Parser.construct nested n) := by
  intro s hs hlen
  cases hlex : s.peek.lexeme with
  | endOfInput =>
      refine (Reads.refuse .statement ?_).congr ?_
      · intro c hc
        have hstarts := starts_of_fits rfl hc
        rw [hlex] at hstarts
        cases hstarts
      · rw [Parser.construct, Reads.peek_bind, hlex]
  | keyword k =>
      cases k with
      | var =>
          refine (Reads.congr (reads_definition hs) ?_).alternativeByPeek
            (fun x => .definition x.1.1 x.1.2.1 x.1.2.2 x.2) (fun _ => rfl) (fun _ => rfl) ?_
          · rw [Parser.construct, Reads.peek_bind, hlex]
          · intro c w hc
            have hlead := leads_of_fits hc
            rw [hlex] at hlead
            cases c with
            | definition keyword target place semicolon =>
                exact ⟨((keyword, target, place), semicolon), rfl⟩
            | conditional | loop | function | evaluation => cases hlead
      | conditional =>
          refine ((reads_conditional hnested hs hlen).congr ?_).alternativeByPeek
            (fun x => .conditional x.1 x.2.1 x.2.2.1 x.2.2.2) (fun _ => rfl) (fun _ => rfl) ?_
          · rw [Parser.construct, Reads.peek_bind, hlex]
          · intro c w hc
            have hlead := leads_of_fits hc
            rw [hlex] at hlead
            cases c with
            | conditional keyword test body otherwise =>
                exact ⟨(keyword, test, body, otherwise), rfl⟩
            | definition | loop | function | evaluation => cases hlead
      | loop =>
          refine ((reads_loop hnested hs hlen).congr ?_).alternativeByPeek
            (fun x => .loop x.1 x.2.1 x.2.2) (fun _ => rfl) (fun _ => rfl) ?_
          · rw [Parser.construct, Reads.peek_bind, hlex]
          · intro c w hc
            have hlead := leads_of_fits hc
            rw [hlex] at hlead
            cases c with
            | loop keyword test body => exact ⟨(keyword, test, body), rfl⟩
            | definition | conditional | function | evaluation => cases hlead
      | function =>
          refine ((reads_function hnested hs hlen).congr ?_).alternativeByPeek
            (fun x => .function x.1 x.2.1.1 x.2.1.2 x.2.2.1 x.2.2.2)
            (fun _ => rfl) (fun _ => rfl) ?_
          · rw [Parser.construct, Reads.peek_bind, hlex]
          · intro c w hc
            have hlead := leads_of_fits hc
            rw [hlex] at hlead
            cases c with
            | function keyword spelling place parameters body =>
                exact ⟨(keyword, (spelling, place), parameters, body), rfl⟩
            | definition | conditional | loop | evaluation => cases hlead
      | alternative =>
          refine (reads_construct_of_expression hs hlen ?_).congr ?_
          · intro k hk
            rw [hlex] at hk
            cases hk
            rfl
          · rw [Parser.construct, Reads.peek_bind, hlex]
  | number | text | name | operator | mark =>
      refine (reads_construct_of_expression hs hlen ?_).congr ?_
      · intro k hk
        rw [hlex] at hk
        cases hk
      · rw [Parser.construct, Reads.peek_bind, hlex]

/-! ## Statements and programs -/

/-- The place of a text that is taken is the place of the next token. -/
theorem span_peek_of_after {sym : Symbol} {d : Derivation sym} {rest : Token.Stream}
    (hnull : sym.nullable = false) (h : s.After d.tokens rest) : s.peek.span = d.place := by
  obtain ⟨t, ts, ht, -⟩ := d.exists_head hnull
  have hahead := h.ahead
  rw [ht] at hahead
  simp [Token.Stream.peek, Token.Stream.peekNth, Derivation.place, ht, hahead]

/-- Statements, to any depth that the tokens ahead allow. -/
theorem reads_statement (n : Nat) :
    ReadsUpTo n followsStatement (.one .statement) (Parser.statement n) := by
  induction n with
  | zero =>
      intro s hs hlen
      have hnil : s.ahead = [] := List.length_eq_zero_iff.1 (Nat.le_zero.1 hlen)
      refine Reads.refuse .statement ?_
      intro d hfits
      have hstarts := starts_of_fits rfl hfits
      rw [peek_of_ahead_nil hs hnil] at hstarts
      cases hstarts
  | succ n ih =>
      intro s hs hlen
      have hreads : Reads followsStatement tokens
          (fun d : Derivation (.one .construct) => Node.inner .statement d.place [d.tree])
          (Parser.statement (n + 1)) s := by
        refine Reads.congr (.andThen (f := fun inside =>
          pure (Node.inner .statement s.peek.span [inside])) (reads_construct ih s hs hlen) ?_) rfl
        intro d rest hafter
        rw [span_peek_of_after rfl hafter]
        rfl
      refine hreads.map .statement (fun _ => rfl) (fun _ => rfl) ?_
      intro d
      cases d with
      | statement inside => exact ⟨inside, rfl⟩

/-- A program is all there is up to the end of the input. -/
theorem reads_program (hs : s.Closed) :
    Reads (· == .endOfInput) tokens (tree (s := .one .program))
      (Parser.program s.ahead.length) s := by
  have hbody : Reads (· == .endOfInput) tokens (tree (s := .many .statement))
      (Parser.itemsUntil Parser.atEnd (Parser.statement s.ahead.length) s.ahead.length) s :=
    reads_itemsUntil endsStatements_beq_endOfInput (fun _ => rfl)
      (reads_statement s.ahead.length) hs _ (Nat.le_refl _) (Nat.le_refl _)
  have hreads : Reads (· == .endOfInput) tokens
      (fun d : Derivation (.many .statement) => Node.inner .program d.place d.tree)
      (Parser.program s.ahead.length) s := by
    refine Reads.congr (.andThen (f := fun statements =>
      pure (Node.inner .program s.peek.span statements)) hbody ?_) rfl
    intro d rest hafter
    rw [span_peek_of_after rfl hafter]
    rfl
  refine hreads.map .program (fun _ => rfl) (fun _ => rfl) ?_
  intro d
  cases d with
  | program body => exact ⟨body, rfl⟩

/-- Nothing but the end of the input is left after a program. -/
theorem peek_of_program (hs : s.Closed) {node : Node} {rest : Token.Stream}
    (run : Parser.program s.ahead.length s = .ok (node, rest)) :
    rest.peek.lexeme = .endOfInput := by
  have hprogram : Parser.program s.ahead.length s =
      (Parser.itemsUntil Parser.atEnd (Parser.statement s.ahead.length) s.ahead.length >>=
        fun statements => pure (Node.inner .program s.peek.span statements)) s := rfl
  rw [hprogram] at run
  cases hbody : Parser.itemsUntil Parser.atEnd (Parser.statement s.ahead.length)
      s.ahead.length s with
  | error f =>
      rw [Reads.bind_error hbody] at run
      cases run
  | ok result =>
      rw [Reads.bind_ok hbody] at run
      cases run
      have hstops := stops_of_itemsUntil (· == .endOfInput) (fun _ => rfl)
        (reads_statement s.ahead.length) hs (Nat.le_refl _) (Nat.le_refl _) hbody
      exact eq_of_beq hstops

end Statements

end ScopeLang.Grammar
