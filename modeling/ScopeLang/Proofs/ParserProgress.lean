-- SUMMARY: Every parsing procedure ends, moves on if it succeeds, and never goes past the first end of input.
import ScopeLang.Proofs.CursorSteps

/-! # Progress

The parsers keep step with the walks that have no budget, from any place of any
token vector. A budget of one unit for each token before the first end of input
is therefore as good as none, and what lies behind that end of input is never
seen.
-/

namespace ScopeLang

open Grammar (EndFree Level)

/-- The parser of an operator level, for what nests inside it. -/
def Parser.level (nested : Parser Node) (budget : Nat) (l : Level) : Parser Node :=
  let product := chain Operator.isMultiplicative (primary nested budget) budget
  let sum := chain Operator.isAdditive product budget
  let relation := atMostOne Operator.isComparison sum
  match l with
  | .logical => atMostOne Operator.isConnective relation
  | .relation => relation
  | .sum => sum
  | .product => product

theorem Parser.level_logical (nested : Parser Node) (budget : Nat) :
    Parser.level nested budget .logical = Parser.logical nested budget := rfl

namespace Walk

variable {k n room : Nat} {view s : Token.Stream} {c : Cursor}

/-! ## Operator levels -/

section Levels

variable {l : Level} {operand : Parser Node}

theorem Faces.operatorAhead? (h : Faces view c s) (l : Level) :
    Ends (Walk.operatorAhead? l.operators) c
      (.ok (view.peek.lexeme.operator?.filter l.operators)) c :=
  h.peek.bind_ok (.done _ c)

theorem Faces.parser_operatorAhead? (h : Faces view c s) (l : Level) :
    Parser.operatorAhead? l.operators s =
      .ok (view.peek.lexeme.operator?.filter l.operators, s) :=
  Grammar.Reads.bind_ok h.parser_peek

/-- An operator of the level and what follows it, or nothing. -/
theorem Tracks.operation {left : Node} {f : Operator → Token → Walk Node}
    {g : Operator → Token → Parser Node}
    (hmore : ∀ op token, Tracks k (room - 1) (f op token) (g op token)) :
    Tracks 0 room
      (do
        match ← Walk.operatorAhead? l.operators with
        | none => return left
        | some op =>
          let token ← Walk.next
          f op token)
      (do
        match ← Parser.operatorAhead? l.operators with
        | none => return left
        | some op =>
          let token ← Parser.next
          g op token) := by
  intro view c s hfaces hlen
  refine .look (hfaces.operatorAhead? l) (.parser_look (hfaces.parser_operatorAhead? l) ?_)
  cases hop : view.peek.lexeme.operator?.filter l.operators with
  | none => exact .pure left
  | some op =>
      have hpeek := (Grammar.operatorAhead?_eq_some hop).1
      have htakes := hfaces.takes (by rw [hpeek]; simp)
      exact (hfaces.bind htakes fun token => (hmore op token).within (by omega)).any

/-- The operations of a level that goes on. -/
theorem tracks_chainFrom (hl : l.goesOn = true)
    (hop : Tracks 1 room (Procedure.operand l).body operand) {budget : Nat}
    (hbudget : budget ≤ room) (left : Node) :
    Tracks 0 budget (Walk.operations l left)
      (Parser.chainFrom l.operators operand budget left) := by
  induction budget generalizing left with
  | zero =>
      -- Only the end of input is ahead, which is no operator.
      intro view c s hfaces hlen
      have hlook := hfaces.operatorAhead? l
      rw [hfaces.peek_of_le_zero hlen] at hlook
      exact .look hlook (.pure left)
  | succ budget ih =>
      refine .operation (k := 1) fun op token => ?_
      refine .bind (k := 0) (hop.within (by omega)).procedure fun right => ?_
      rw [hl]
      exact (ih (Nat.le_of_succ_le hbudget) _).routine.within (by omega)

/-- A level that goes on. -/
theorem tracks_chain (hl : l.goesOn = true)
    (hop : Tracks 1 (n + 1) (Procedure.operand l).body operand) :
    Tracks 1 (n + 1) (Walk.level l) (Parser.chain l.operators operand n) :=
  .bind hop.procedure fun left => (tracks_chainFrom hl hop (Nat.le_succ n) left).routine

/-- A level that takes at most one operator. -/
theorem tracks_atMostOne (hl : l.goesOn = false)
    (hop : Tracks 1 room (Procedure.operand l).body operand) :
    Tracks 1 room (Walk.level l) (Parser.atMostOne l.operators operand) := by
  refine .bind (k := 0) hop.procedure fun left => .routine (r := .operations l left) ?_
  refine .operation (k := 1) fun op token => ?_
  refine .bind (k := 0) (hop.within (by omega)).procedure fun right => ?_
  rw [hl]
  exact .pure _

end Levels

/-! ## Expressions -/

section Expressions

variable {nested : Parser Node}

theorem tracks_invocation (hnested : Tracks 1 n Walk.expression nested) :
    Tracks 1 (n + 2) Walk.invocation (Parser.call nested n) :=
  .bind .expectName fun _ => .bind (.parenthesized (q := .expression) hnested) fun _ => .pure _

/-- A name is the callee of a call, or stands for itself. The token behind it is
looked at, which is the first end of input at the latest. -/
theorem Faces.name (h : Faces view c s) (hnested : Tracks 1 n Walk.expression nested)
    (hlen : view.ahead.length ≤ n + 1) {spelling : String}
    (hlex : view.peek.lexeme = .name spelling) (node : Node) :
    InStep 1 view.ahead.length
      (do
        if (← Walk.peekNth 2).lexeme == .mark .openParen then
          Walk.procedure .call
        else
          let _ ← Walk.next
          return node)
      (do
        if ((← get).peekNth 2).lexeme == .mark .openParen then
          Parser.call nested n
        else
          let _ ← Parser.next
          return node) c s := by
  have hpeek : view.peek.lexeme ≠ .endOfInput := by simp [hlex]
  have hpos := h.ahead_pos hpeek
  have hcall : Tracks 1 (n + 2) (Walk.procedure .call) (Parser.call nested n) :=
    (tracks_invocation hnested).procedure
  refine .look (h.peekNth (n := 2) hpos) (.parser_look (p := get) (a := s) rfl ?_)
  rw [h.peekNth_stream (n := 2) hpos]
  split
  · exact hcall view c s h (by omega)
  · exact h.bind (h.takes hpeek) fun _ => .pure node

theorem tracks_primary (hnested : Tracks 1 n Walk.expression nested) :
    Tracks 1 (n + 1) Walk.primary (Parser.primary nested n) := by
  intro view c s hfaces hlen
  refine hfaces.peekThen ?_
  cases hlex : view.peek.lexeme with
  | number | text => exact hfaces.bind (hfaces.takes (by simp [hlex])) fun _ => .pure _
  | name => exact hfaces.name hnested hlen hlex _
  | mark m =>
      cases m with
      | openParen =>
          exact hfaces.bind (hfaces.takes (by simp [hlex])) fun _ =>
            .bind (.procedure (q := .expression) (hnested.within (by omega))) fun _ =>
              .bind (.expect (by simp)) fun _ => .pure _
      | _ => exact Tracks.refuse .expression view c s hfaces hlen
  | _ => exact Tracks.refuse .expression view c s hfaces hlen

theorem tracks_level (hnested : Tracks 1 n Walk.expression nested) (l : Level) :
    Tracks 1 (n + 1) (Walk.level l) (Parser.level nested n l) := by
  have hproduct : Tracks 1 (n + 1) (Walk.level .product) (Parser.level nested n .product) :=
    tracks_chain rfl (tracks_primary hnested)
  have hsum : Tracks 1 (n + 1) (Walk.level .sum) (Parser.level nested n .sum) :=
    tracks_chain rfl hproduct
  have hrelation : Tracks 1 (n + 1) (Walk.level .relation) (Parser.level nested n .relation) :=
    tracks_atMostOne rfl hsum
  cases l with
  | logical => exact tracks_atMostOne rfl hrelation
  | relation => exact hrelation
  | sum => exact hsum
  | product => exact hproduct

theorem tracks_assignment (hnested : Tracks 1 n Walk.expression nested) :
    Tracks 1 (n + 1) Walk.expression (Parser.assignment nested n) := by
  have hlogical : Tracks 1 (n + 1) (Walk.procedure (.level .logical))
      (Parser.logical nested n) := by
    rw [← Parser.level_logical]
    exact (tracks_level hnested .logical).procedure
  intro view c s hfaces hlen
  obtain ⟨ahead, hwalk, hrun⟩ := hfaces.assignmentAhead
  refine .look hwalk (.parser_look hrun ?_)
  cases ahead with
  | true =>
      refine hfaces.bind (k := 1) (Tracks.expectName view c s hfaces hlen) fun name => ?_
      exact .bind (.expect (by simp)) fun _ =>
        .bind (.procedure (q := .expression) (hnested.within (by omega))) fun _ => .pure _
  | false => exact hlogical view c s hfaces hlen

theorem refuse_bind {α β : Type} (wanted : Wanted) (g : α → Parser β) :
    Parser.refuse wanted >>= g = Parser.refuse wanted := by
  funext s
  rw [Parser.refuse, Parser.refuse, bind_assoc, Grammar.Reads.peek_bind, Grammar.Reads.peek_bind]
  split <;> rfl

/-- Without room what comes first refuses, and nothing comes after it. -/
theorem Tracks.refused {α β : Type} {w : Walk α} {f : α → Walk β} {wanted : Wanted}
    (h : Tracks 1 0 w (Parser.refuse wanted)) : Tracks 1 0 (w >>= f) (Parser.refuse wanted) := by
  rw [← refuse_bind wanted fun _ : α => Parser.refuse wanted]
  exact h.bind_refused

/-- Without room every level comes down to its first primary, which is missing. -/
theorem tracks_level_refused (l : Level) :
    Tracks 1 0 (Walk.level l) (Parser.refuse .expression) := by
  have hprimary : Tracks 1 0 Walk.primary (Parser.refuse .expression) := by
    intro view c s hfaces hlen
    refine .look hfaces.peek ?_
    rw [hfaces.peek_of_le_zero hlen]
    exact Tracks.refuse .expression view c s hfaces hlen
  have hlevel : ∀ l, Tracks 1 0 (Procedure.operand l).body (Parser.refuse .expression) →
      Tracks 1 0 (Walk.level l) (Parser.refuse .expression) :=
    fun l hop => hop.procedure.refused
  have hproduct := hlevel .product hprimary
  have hsum := hlevel .sum hproduct
  have hrelation := hlevel .relation hsum
  cases l with
  | logical => exact hlevel .logical hrelation
  | relation => exact hrelation
  | sum => exact hsum
  | product => exact hproduct

/-- Expressions, to any depth that the tokens before the end of input allow. -/
theorem tracks_expression (n : Nat) : Tracks 1 n Walk.expression (Parser.expression n) := by
  induction n with
  | zero =>
      have hlogical : Tracks 1 0 (Walk.procedure (.level .logical)) (Parser.refuse .expression) :=
        (tracks_level_refused .logical).procedure
      intro view c s hfaces hlen
      have hahead : Ends Walk.assignmentAhead c (.ok false) c := by
        refine hfaces.peek.bind_ok ?_
        rw [hfaces.peek_of_le_zero hlen]
        exact .done false c
      exact .look hahead (hlogical view c s hfaces hlen)
  | succ n ih => exact tracks_assignment ih

end Expressions

/-! ## Statements -/

section Statements

variable {nested : Parser Node}

theorem tracks_condition : Tracks 1 (n + 1) Walk.condition (Parser.condition n) :=
  .bind (.expect (by simp)) fun _ => .bind (tracks_expression n).procedure fun _ =>
    .bind (.expect (by simp)) fun _ => .pure _

theorem tracks_definition : Tracks 1 room Walk.definition Parser.definition :=
  .bind (.expect (by simp)) fun _ => .bind .expectName fun _ => .pure _

theorem tracks_parameter : Tracks 1 room Walk.parameter Parser.parameter :=
  .bind .expectName fun _ => .pure _

theorem Tracks.terminated {q : Procedure} {p : Parser Node} (h : Tracks 1 room q.body p) :
    Tracks 1 room (Walk.terminated q) (Parser.terminated p) :=
  .bind h.procedure fun _ => .bind (.expect (by simp)) fun _ => .pure _

theorem tracks_block (hnested : Tracks 1 n Walk.statement nested) :
    Tracks 1 (n + 1) Walk.block (Parser.block nested n) :=
  .bind (.expect (by simp)) fun _ =>
    .bind (Tracks.statementsUntil _ hnested (Nat.le_refl n)).routine fun _ =>
      .bind (.expect (by simp)) fun _ => .pure _

theorem tracks_loop (hnested : Tracks 1 n Walk.statement nested) :
    Tracks 1 (n + 2) Walk.loop (Parser.loop nested n) :=
  .bind (.expect (by simp)) fun _ => .bind (.procedure (q := .condition) tracks_condition) fun _ =>
    .bind (.procedure (q := .block) ((tracks_block hnested).within (by omega))) fun _ => .pure _

theorem tracks_conditional (hnested : Tracks 1 n Walk.statement nested) :
    Tracks 1 (n + 2) Walk.conditional (Parser.conditional nested n) := by
  have hblock : Tracks 1 (n + 1) (Walk.procedure .block) (Parser.block nested n) :=
    (tracks_block hnested).procedure
  refine .bind (k := 1) (.expect (by simp)) fun keyword => ?_
  refine .bind (k := 1) (.procedure (q := .condition) tracks_condition) fun test => ?_
  refine .bind (k := 0) (hblock.within (by omega)) fun consequence => ?_
  intro view c s hfaces hlen
  refine hfaces.seesThen ?_
  split
  · rename_i hsees
    have htakes := hfaces.takes (by simp [eq_of_beq hsees])
    exact (hfaces.bind htakes fun _ => .bind (hblock.within (by omega)) fun _ => .pure _).any
  · exact .pure _

theorem tracks_function (hnested : Tracks 1 n Walk.statement nested) :
    Tracks 1 (n + 2) Walk.function (Parser.function nested n) := by
  have hparameters : Tracks 1 (n + 1) (Walk.parenthesized .parameter)
      (Parser.parenthesized Parser.parameter n) := .parenthesized tracks_parameter
  have hblock : Tracks 1 (n + 1) (Walk.procedure .block) (Parser.block nested n) :=
    (tracks_block hnested).procedure
  exact .bind (.expect (by simp)) fun _ => .bind .expectName fun _ =>
    .bind (hparameters.within (by omega)) fun _ => .bind (hblock.within (by omega)) fun _ => .pure _

theorem tracks_construct (hnested : Tracks 1 n Walk.statement nested) :
    Tracks 1 (n + 1) Walk.construct (Parser.construct nested n) := by
  have hconditional : Tracks 1 (n + 2) (Walk.procedure .conditional) _ :=
    (tracks_conditional hnested).procedure
  have hloop : Tracks 1 (n + 2) (Walk.procedure .loop) _ := (tracks_loop hnested).procedure
  have hfunction : Tracks 1 (n + 2) (Walk.procedure .function) _ :=
    (tracks_function hnested).procedure
  have hdefinition : Tracks 1 (n + 1) (Walk.terminated .definition) _ :=
    .terminated tracks_definition
  have hexpression : Tracks 1 (n + 1) (Walk.terminated .expression) _ :=
    .terminated (tracks_expression (n + 1))
  intro view c s hfaces hlen
  refine hfaces.peekThen ?_
  cases hlex : view.peek.lexeme with
  | endOfInput => exact Tracks.refuse .statement view c s hfaces hlen
  | keyword word =>
      cases word with
      | var => exact hdefinition view c s hfaces hlen
      | conditional => exact hconditional view c s hfaces (by omega)
      | loop => exact hloop view c s hfaces (by omega)
      | function => exact hfunction view c s hfaces (by omega)
      | alternative => exact hexpression view c s hfaces hlen
  | number | text | name | operator | mark => exact hexpression view c s hfaces hlen

theorem tracks_construct_refused : Tracks 1 0 Walk.construct (Parser.refuse .statement) := by
  intro view c s hfaces hlen
  refine .look hfaces.peek ?_
  rw [hfaces.peek_of_le_zero hlen]
  exact Tracks.refuse .statement view c s hfaces hlen

/-- Statements, to any depth that the tokens before the end of input allow. -/
theorem tracks_statement (n : Nat) : Tracks 1 n Walk.statement (Parser.statement n) := by
  induction n with
  | zero =>
      intro view c s hfaces hlen
      exact .look hfaces.peek (tracks_construct_refused.refused view c s hfaces hlen)
  | succ n ih =>
      intro view c s hfaces hlen
      refine hfaces.peekThen ?_
      exact hfaces.bind (tracks_construct ih view c s hfaces hlen) fun _ => .pure _

theorem tracks_program (n : Nat) : Tracks 1 n Walk.program (Parser.program n) := by
  intro view c s hfaces hlen
  have hbody : Tracks 1 n (Walk.routine (.statementsUntil .endOfInput)) _ :=
    (Tracks.statementsUntil .endOfInput (tracks_statement n) (Nat.le_refl n)).routine
  refine hfaces.peekThen ?_
  exact hfaces.bind (hbody view c s hfaces hlen) fun _ => .pure _

end Statements

end Walk

/-! ## Procedures -/

namespace Procedure

/-- The procedure within a budget. -/
def parser (budget : Nat) : Procedure → Parser Node
  | .program => Parser.program budget
  | .statement => Parser.statement budget
  | .block => Parser.block (Parser.statement budget) budget
  | .definition => Parser.definition
  | .conditional => Parser.conditional (Parser.statement budget) budget
  | .loop => Parser.loop (Parser.statement budget) budget
  | .condition => Parser.condition budget
  | .function => Parser.function (Parser.statement budget) budget
  | .parameter => Parser.parameter
  | .expression => Parser.expression budget
  | .level l => Parser.level (Parser.expression budget) budget l
  | .primary => Parser.primary (Parser.expression budget) budget
  | .call => Parser.call (Parser.expression budget) budget

/-- Every procedure takes a token if it succeeds, and a unit for each token is enough. -/
theorem tracks (q : Procedure) (n : Nat) : Walk.Tracks 1 n q.body (q.parser n) := by
  have hexpression := Walk.tracks_expression n
  have hstatement := Walk.tracks_statement n
  cases q with
  | program => exact Walk.tracks_program n
  | statement => exact hstatement
  | block => exact (Walk.tracks_block hstatement).within (by omega)
  | definition => exact Walk.tracks_definition
  | conditional => exact (Walk.tracks_conditional hstatement).within (by omega)
  | loop => exact (Walk.tracks_loop hstatement).within (by omega)
  | condition => exact Walk.tracks_condition.within (by omega)
  | function => exact (Walk.tracks_function hstatement).within (by omega)
  | parameter => exact Walk.tracks_parameter
  | expression => exact hexpression
  | level l => exact (Walk.tracks_level hexpression l).within (by omega)
  | primary => exact (Walk.tracks_primary hexpression).within (by omega)
  | call => exact (Walk.tracks_invocation hexpression).within (by omega)

end Procedure

/-! ## Token vectors -/

namespace Token

variable {tokens u r : List Token} {e : Token}

theorem withEnd_eq (tokens : List Token) :
    withEnd tokens = (Stream.ofTokens tokens).ahead ++ [(Stream.ofTokens tokens).stop] := by
  rw [withEnd, Stream.ofTokens]
  cases hlast : tokens.getLast? with
  | none => simp [List.getLast?_eq_none_iff.1 hlast]
  | some last =>
      cases hend : last.isEnd with
      | true => simp [hend, List.dropLast_append_getLast? last hlast]
      | false => simp [hend]

theorem withEnd_of_endFree (h : EndFree tokens) :
    withEnd tokens = tokens ++ [Stream.endAfter tokens.getLast?] := by
  rw [withEnd_eq, Grammar.ofTokens_of_endFree h]

/-- Only behind an end of input that is there already may another one be added. -/
theorem exists_withEnd_append (u : List Token) (e : Token) (r : List Token) :
    ∃ r', withEnd (u ++ e :: r) = u ++ e :: r' := by
  rw [withEnd]
  split
  · exact ⟨r, rfl⟩
  · exact ⟨r ++ [_], by rw [List.append_assoc, List.cons_append]⟩

theorem throughEnd_of_append (hu : EndFree u) (he : e.isEnd = true)
    (h : withEnd tokens = u ++ e :: r) : throughEnd tokens = u ++ [e] := by
  have hfind : u.findIdx isEnd = u.length :=
    List.findIdx_eq_length.2 fun t ht => beq_eq_false_iff_ne.2 (hu t ht)
  rw [throughEnd, h]
  simp [List.findIdx_append, hfind, List.findIdx_cons, he, List.take_append]

/-- What lies ahead of a place in the vector is what the stream has ahead there. -/
theorem drop_withEnd {k : Nat} (hk : k < (withEnd tokens).length) :
    (withEnd tokens).drop k = ((Stream.ofTokens tokens).forward k).ahead ++
      [((Stream.ofTokens tokens).forward k).stop] := by
  rw [withEnd_eq, List.length_append, List.length_singleton] at hk
  rw [withEnd_eq, List.drop_append_of_le_length (Nat.le_of_lt_succ hk)]
  rfl

/-- From every place of the vector there is a first end of input ahead. -/
theorem exists_drop_withEnd {k : Nat} (hk : k < (withEnd tokens).length) :
    ∃ u e r, EndFree u ∧ e.isEnd = true ∧ (withEnd tokens).drop k = u ++ e :: r := by
  have hstop : (Stream.ofTokens tokens).stop ∈ (withEnd tokens).drop k := by
    rw [drop_withEnd hk]
    exact List.mem_append_right _ (List.mem_singleton_self _)
  have hsome : ((withEnd tokens).drop k).find? isEnd ≠ none := by
    intro hnone
    exact List.find?_eq_none.1 hnone _ hstop (Stream.isEnd_stop_ofTokens tokens)
  obtain ⟨e, he⟩ := Option.ne_none_iff_exists'.1 hsome
  obtain ⟨hend, u, r, hdrop, hu⟩ := List.find?_eq_some_iff_append.1 he
  refine ⟨u, e, r, ?_, hend, hdrop⟩
  intro t ht
  have hnot : t.isEnd = false := by simpa using hu t ht
  exact beq_eq_false_iff_ne.1 hnot

end Token

/-! ## Whole vectors -/

/-- The place `i` of a vector can be reached from the place `k` without passing an
end of input. -/
structure InReach (vector : List Token) (k i : Nat) : Prop where
  forward : k ≤ i
  inside : i < vector.length
  notPast : ∀ e t, k ≤ e → vector[e]? = some t → t.isEnd = true → i ≤ e

theorem InReach.of_le {vector : List Token} {k i k' : Nat} (h : InReach vector k k')
    (hk : k ≤ i) (hi : i ≤ k') : InReach vector k i where
  forward := hk
  inside := Nat.lt_of_le_of_lt hi h.inside
  notPast e t hke ht hend := Nat.le_trans hi (h.notPast e t hke ht hend)

namespace Walk

variable {tokens tokens' : List Token} {k : Nat}

/-- A cursor faces what the stream has ahead at the same place. -/
theorem exists_faces (hk : k < (Token.withEnd tokens).length) :
    ∃ view, Faces view ⟨Token.withEnd tokens, k⟩ ((Token.Stream.ofTokens tokens).forward k) := by
  obtain ⟨u, e, r, hu, he, hdrop⟩ := Token.exists_drop_withEnd hk
  have hahead : u ++ [e] <+: (Token.withEnd tokens).drop k := ⟨r, by simp [hdrop]⟩
  exact ⟨⟨u, e⟩, hu, eq_of_beq he, hahead, Token.drop_withEnd hk ▸ hahead⟩

/-- A stream may have anything behind the first end of input that the cursor faces. -/
theorem exists_faces_of_throughEnd (h : Token.throughEnd tokens' = Token.throughEnd tokens) :
    ∃ view, Faces view ⟨Token.withEnd tokens, 0⟩ (Token.Stream.ofTokens tokens') := by
  have hpos : 0 < (Token.withEnd tokens).length := by
    rw [Token.withEnd_eq]
    simp
  obtain ⟨u, e, r, hu, he, hdrop⟩ := Token.exists_drop_withEnd hpos
  have hthrough : Token.throughEnd tokens = u ++ [e] := Token.throughEnd_of_append hu he hdrop
  refine ⟨⟨u, e⟩, hu, eq_of_beq he, ⟨r, by simp [hdrop]⟩, ?_⟩
  rw [← Token.withEnd_eq]
  change u ++ [e] <+: _
  rw [← hthrough, ← h]
  exact List.take_prefix _ _

theorem Faces.inReach {view s : Token.Stream} {vector : List Token} {n : Nat}
    (h : Faces view ⟨vector, k⟩ s) (hn : n ≤ view.ahead.length) : InReach vector k (k + n) where
  forward := Nat.le_add_right k n
  inside := Nat.lt_of_le_of_lt (Nat.add_le_add_left hn k) h.position_lt
  notPast := by
    intro e t hke ht hend
    obtain ⟨i, rfl⟩ := Nat.exists_eq_add_of_le hke
    by_contra hlt
    have hnot := h.isEnd_eq_false (i := i) (by omega) ht
    rw [hend] at hnot
    cases hnot

/-- The program that the walk finds is the one that is parsed, also if the tokens
behind the first end of input are others. -/
theorem program_ends (h : Token.throughEnd tokens' = Token.throughEnd tokens) :
    ∃ k', Ends Walk.program ⟨Token.withEnd tokens, 0⟩ (parseTokens tokens')
      ⟨Token.withEnd tokens, k'⟩ := by
  obtain ⟨view, hfaces⟩ := exists_faces_of_throughEnd h
  have hstep := tracks_program _ view _ _ hfaces hfaces.length_le
  obtain ⟨result, n, hends, -, -⟩ := hstep.exists_ends
  have hparse : parseTokens tokens' = result := by
    change (Parser.program _ (Token.Stream.ofTokens tokens')).map Prod.fst = result
    rw [hstep.run_eq hends]
    cases result <;> rfl
  exact ⟨0 + n, hparse ▸ hends⟩

end Walk

namespace Procedure

/-- On a token sequence the procedure ends with `result` when it is started at the
place `k`, and is then at the place `k'`. -/
structure Progresses (q : Procedure) (tokens : List Token) (k : Nat)
    (result : Except Fault Node) (k' : Nat) : Prop where
  ends : q.body.Ends ⟨Token.withEnd tokens, k⟩ result ⟨Token.withEnd tokens, k'⟩
  advances : ∀ node, result = .ok node → k < k'
  inReach : InReach (Token.withEnd tokens) k k'
  /-- No other place is visited on the way. -/
  onTheWay : ∀ c, q.body.Visits ⟨Token.withEnd tokens, k⟩ c →
    c.tokens = Token.withEnd tokens ∧ InReach (Token.withEnd tokens) k c.position
  /-- A budget of one unit for each token ahead is as good as none. -/
  run : ∀ budget, ((Token.Stream.ofTokens tokens).forward k).ahead.length ≤ budget →
    q.parser budget ((Token.Stream.ofTokens tokens).forward k) =
      result.map fun node => (node, (Token.Stream.ofTokens tokens).forward k')

theorem exists_progresses (q : Procedure) {tokens : List Token} {k : Nat}
    (hk : k < (Token.withEnd tokens).length) : ∃ result k', q.Progresses tokens k result k' := by
  obtain ⟨view, hfaces⟩ := Walk.exists_faces hk
  have hstep : ∀ budget, ((Token.Stream.ofTokens tokens).forward k).ahead.length ≤ budget →
      Walk.InStep 1 view.ahead.length q.body (q.parser budget) ⟨Token.withEnd tokens, k⟩
        ((Token.Stream.ofTokens tokens).forward k) :=
    fun budget hbudget => q.tracks budget view _ _ hfaces (Nat.le_trans hfaces.length_le hbudget)
  -- Any budget that is large enough leads to the end. The others then lead to the same.
  obtain ⟨result, n, hends, hn, hresult⟩ := (hstep _ (Nat.le_refl _)).exists_ends
  have hinReach := hfaces.inReach hn
  refine ⟨result, k + n, hends, ?_, hinReach, ?_, ?_⟩
  · intro node hnode
    exact Nat.lt_add_of_pos_right (hresult node hnode)
  · intro c hvisits
    obtain ⟨hfirst, hlast⟩ := hvisits.between hends
    exact ⟨hlast.tokens, hinReach.of_le hfirst.position hlast.position⟩
  · intro budget hbudget
    rw [(hstep budget hbudget).run_eq hends, Token.Stream.forward_forward]

end Procedure

/-- Every parsing procedure ends, from every place of every token vector. It has then
taken at least one token if it succeeds. In any case it has at no time been outside of
the vector or behind an end of input that was ahead of it. So a program is parsed
without a bound on how often the procedures recur, and the tree or the fault is that of
the tokens up to and including the first end of input. If there is none, that is the one
which is added, one column after the last token, or at the start. -/
theorem parsing_progresses (tokens : List Token) :
    (∀ (q : Procedure) (k : Nat), k < (Token.withEnd tokens).length →
      ∃ result k', q.Progresses tokens k result k') ∧
    (∃ k', Walk.program.Ends ⟨Token.withEnd tokens, 0⟩ (parseTokens tokens)
      ⟨Token.withEnd tokens, k'⟩) ∧
    (∀ tokens', Token.throughEnd tokens' = Token.throughEnd tokens →
      parseTokens tokens' = parseTokens tokens) ∧
    (∀ u e r, tokens = u ++ e :: r → EndFree u → e.isEnd = true →
      Token.throughEnd tokens = u ++ [e]) ∧
    (EndFree tokens → Token.throughEnd tokens = tokens ++ [⟨.endOfInput,
      match tokens.getLast? with
      | some last => ⟨last.span.line, last.span.column + 1⟩
      | none => ⟨1, 1⟩⟩]) := by
  refine ⟨fun q k hk => q.exists_progresses hk, Walk.program_ends rfl, ?_, ?_, ?_⟩
  · intro tokens' h
    obtain ⟨_, hends⟩ := Walk.program_ends (rfl : Token.throughEnd tokens = _)
    obtain ⟨_, hends'⟩ := Walk.program_ends h
    exact (hends'.unique hends).1
  · rintro u e r rfl hu he
    obtain ⟨r', hr'⟩ := Token.exists_withEnd_append u e r
    exact Token.throughEnd_of_append hu he hr'
  · intro hfree
    rw [Token.throughEnd_of_append hfree rfl (Token.withEnd_of_endFree hfree)]
    cases hlast : tokens.getLast? <;> rfl

/-- In `a;` with an end of input behind it and then `b`, the statement ends before the
end of input, and `b` does not count. -/
theorem parsing_progresses_middle :
    let tokens : List Token := [⟨.name "a", ⟨1, 1⟩⟩, ⟨.mark .semicolon, ⟨1, 2⟩⟩,
      ⟨.endOfInput, ⟨2, 1⟩⟩, ⟨.name "b", ⟨3, 1⟩⟩]
    let found := Node.inner .statement ⟨1, 1⟩ [.leaf .name "a" ⟨1, 1⟩]
    (∃ k', 0 < k' ∧ k' ≤ 2 ∧
      Walk.statement.Ends ⟨Token.withEnd tokens, 0⟩ (.ok found) ⟨Token.withEnd tokens, k'⟩) ∧
    (∃ k', Walk.program.Ends ⟨Token.withEnd tokens, 0⟩ (.ok (.inner .program ⟨1, 1⟩ [found]))
      ⟨Token.withEnd tokens, k'⟩) ∧
    parseTokens (tokens.take 3) = parseTokens tokens := by
  intro tokens found
  obtain ⟨hprogress, hprogram, hsame, hthrough, -⟩ := parsing_progresses tokens
  obtain ⟨result, k', hstatement⟩ := hprogress .statement 0 (by decide)
  have hrun : Procedure.statement.parser 4 ((Token.Stream.ofTokens tokens).forward 0) =
      .ok (found, (Token.Stream.ofTokens tokens).forward 2) := rfl
  have hresult := hrun.symm.trans (hstatement.run 4 (by decide))
  refine ⟨?_, hprogram, ?_⟩
  · cases result with
    | error f => cases hresult
    | ok node =>
        cases congrArg (Except.map Prod.fst) hresult
        exact ⟨k', hstatement.advances found rfl,
          hstatement.inReach.notPast 2 _ (by decide) rfl rfl, hstatement.ends⟩
  · refine hsame (tokens.take 3) ?_
    rw [hthrough [⟨.name "a", ⟨1, 1⟩⟩, ⟨.mark .semicolon, ⟨1, 2⟩⟩] _ _ rfl (by decide) rfl]
    rfl

end ScopeLang
