-- SUMMARY: Every parser reads the symbol of the grammar it is named after.
import ScopeLang.Proofs.Grammar
import ScopeLang.Proofs.Reading

/-! # Parsers and the grammar

Each parser reads the derivations of one symbol of the grammar. A budget is
enough for the streams that have no more tokens ahead than it has units: what
nests starts at least one token later, with one unit less.
-/

namespace ScopeLang.Grammar

open ScopeLang.Grammar.Derivation

/-- The parser reads the derivations of a symbol on every stream with at most
`n` tokens ahead. -/
def ReadsUpTo (n : Nat) (follow : Lexeme → Bool) (s : Symbol) (p : Parser s.Value) : Prop :=
  ∀ stream : Token.Stream, stream.Closed → stream.ahead.length ≤ n →
    Reads follow tokens tree p stream

/-- The first token that a text is seen to have is one that its symbol starts with. -/
theorem starts_of_fits {s : Symbol} {follow : Lexeme → Bool} {d : Derivation s} {t : Token}
    {w : List Token} (hnull : s.nullable = false) (h : Fits follow d.tokens (t :: w)) :
    s.starts t.lexeme = true := by
  obtain ⟨t', ts, ht, hstarts⟩ := d.exists_head hnull
  rw [ht, fits_cons_cons] at h
  rw [h.1]
  exact hstarts

/-! ## What may follow -/

/-- What follows an expression. -/
def closesExpression : Lexeme → Bool
  | .mark .closeParen | .mark .comma | .mark .semicolon => true
  | _ => false

/-- What follows an operand: an operator of the level, or what follows the level. -/
def Level.followOperand (l : Level) (follow : Lexeme → Bool) : Lexeme → Bool
  | .operator op => l.operators op || follow (.operator op)
  | x => follow x

/-- A statement cannot be followed by an alternative, which would belong to it. -/
def followsStatement (l : Lexeme) : Bool :=
  l != .keyword .alternative

/-- The operators of the level do not follow it. -/
def Level.Delimits (l : Level) (follow : Lexeme → Bool) : Prop :=
  ∀ op, l.operators op = true → follow (.operator op) = false

theorem Level.followOperand_of_follow (l : Level) {follow : Lexeme → Bool} {x : Lexeme}
    (h : follow x = true) : l.followOperand follow x = true := by
  cases x <;> simp_all [followOperand]

theorem allows_followOperand {l : Level} {follow : Lexeme → Bool} (d : Derivation (.operations l))
    {r : List Token} (h : Allows follow r) : Allows (l.followOperand follow) (d.tokens ++ r) := by
  cases d with
  | noOperation =>
      cases r with
      | nil => exact allows_nil
      | cons t r =>
          exact allows_cons.2 (l.followOperand_of_follow (allows_cons.1 h))
  | onlyOperation _ once op belongs | moreOperations _ often op belongs =>
      simp [tokens, Level.followOperand, belongs]

/-! ## Filling in

Every symbol derives some text, so whatever has been taken of a rule can be
completed. -/

/-- A single operand of a level. -/
def ofOperand (l : Level) (d : Derivation (.one l.operand)) : Derivation (.one (.level l)) :=
  .level l d (.noOperation l)

/-- A primary is an operand of every level. -/
def ofPrimary (d : Derivation (.one .primary)) : (l : Level) → Derivation (.one (.level l))
  | .product => ofOperand .product d
  | .sum => ofOperand .sum (ofOperand .product d)
  | .relation => ofOperand .relation (ofOperand .sum (ofOperand .product d))
  | .logical => ofOperand .logical (ofOperand .relation (ofOperand .sum (ofOperand .product d)))

@[simp] theorem tokens_ofPrimary (d : Derivation (.one .primary)) (l : Level) :
    (ofPrimary d l).tokens = d.tokens := by
  cases l <;> simp only [ofPrimary, ofOperand, tokens, List.append_nil] <;> rfl

/-- A primary is an expression. -/
def expressionOfPrimary (d : Derivation (.one .primary)) : Derivation (.one .expression) :=
  .logical (ofPrimary d .logical)

/-- A statement that consists of a primary. -/
def statementOfPrimary (d : Derivation (.one .primary)) : Derivation (.one .statement) :=
  .statement (.evaluation (expressionOfPrimary d) .start)

/-- Some text of each phrase. -/
def filler : (p : Phrase) → Derivation (.one p)
  | .program => .program (.last _ (statementOfPrimary (.number "0" .start)))
  | .statement => statementOfPrimary (.number "0" .start)
  | .construct => .definition .start "x" .start .start
  | .block => .block .start (.last _ (statementOfPrimary (.number "0" .start))) .start
  | .condition => .condition .start (expressionOfPrimary (.number "0" .start)) .start
  | .expression => expressionOfPrimary (.number "0" .start)
  | .level l => ofPrimary (.number "0" .start) l
  | .primary => .number "0" .start
  | .parameter => .parameter "x" .start

instance (s : Symbol) : Nonempty (Derivation s) :=
  match s with
  | .one p => ⟨filler p⟩
  | .many p => ⟨.last p (filler p)⟩
  | .separated p => ⟨.lastItem p (filler p)⟩
  | .parenthesized p => ⟨.noItems p .start .start⟩
  | .alternative => ⟨.noAlternative⟩
  | .operations l => ⟨.noOperation l⟩

/-- A fault at a token that no text of the symbol starts with. -/
theorem reads_of_refusal {s : Token.Stream} {sym : Symbol} {follow : Lexeme → Bool} {q : Parser sym.Value}
    {f : Fault} (hnull : sym.nullable = false) (run : q s = .error f) (blames : f.Blames s.peek)
    (hstarts : sym.starts s.peek.lexeme = false) : Reads follow tokens tree q s := by
  obtain ⟨d⟩ : Nonempty (Derivation sym) := inferInstance
  refine .refuses f [] s run (.refl s) blames ⟨d, List.nil_prefix⟩ ?_
  intro x hfits
  rw [starts_of_fits hnull hfits] at hstarts
  cases hstarts

theorem peek_of_ahead_nil {s : Token.Stream} (hs : s.Closed) (hnil : s.ahead = []) :
    s.peek.lexeme = .endOfInput := by
  obtain ⟨ahead, stop⟩ := s
  cases hnil
  exact hs

/-! ## Operator levels -/

section Levels

variable {l : Level} {follow : Lexeme → Bool} {operand : Parser Node} {n : Nat}
  {s : Token.Stream}

/-- The operator that comes next, if it belongs to the level. -/
theorem operatorAhead?_eq_some {op : Operator}
    (h : (s.peek.lexeme.operator?).filter l.operators = some op) :
    s.peek = ⟨.operator op, s.peek.span⟩ ∧ l.operators op = true := by
  obtain ⟨hop, hl⟩ := Option.filter_eq_some_iff.1 h
  refine ⟨?_, hl⟩
  cases hlex : s.peek.lexeme <;> rw [hlex] at hop <;> cases hop
  rw [← hlex]

theorem operatorAhead?_bind (f : Option Operator → Parser Node) :
    (Parser.operatorAhead? l.operators >>= f) s =
      f ((s.peek.lexeme.operator?).filter l.operators) s := rfl

/-- No operations are all that fits if no operator of the level comes next. -/
theorem eq_noOperation {d : Derivation (.operations l)} {w : List Token}
    (hnone : (s.peek.lexeme.operator?).filter l.operators = none)
    (h : Fits follow d.tokens (s.peek :: w)) : d = .noOperation l := by
  cases d with
  | noOperation => rfl
  | onlyOperation _ once op belongs | moreOperations _ often op belongs =>
      rw [tokens, fits_cons_cons] at h
      rw [h.1] at hnone
      simp [Lexeme.operator?, belongs] at hnone

/-- Where no operator of the level comes next, no operations are read. -/
theorem reads_noOperation {p : Parser Node} (left : Node)
    (hnone : (s.peek.lexeme.operator?).filter l.operators = none)
    (run : p s = .ok (left, s)) :
    Reads follow tokens (fun d : Derivation (.operations l) => d.tree left) p s :=
  .accepts (.noOperation l) s run (.refl s) fun _ hx => eq_noOperation hnone hx

/-- The operations of a level that goes on. -/
theorem reads_chainFrom (hl : l.goesOn = true) (hfollow : l.Delimits follow)
    (hop : ReadsUpTo n (l.followOperand follow) (.one l.operand) operand) (budget : Nat)
    (left : Node) (hs : s.Closed) (hlen : s.ahead.length ≤ budget) (hn : budget ≤ n) :
    Reads follow tokens (fun d : Derivation (.operations l) => d.tree left)
      (Parser.chainFrom l.operators operand budget left) s := by
  induction budget generalizing s left with
  | zero =>
      refine reads_noOperation left ?_ rfl
      have hnil : s.ahead = [] := List.length_eq_zero_iff.1 (Nat.le_zero.1 hlen)
      rw [peek_of_ahead_nil hs hnil]
      rfl
  | succ budget ih =>
      cases h : (s.peek.lexeme.operator?).filter l.operators with
      | none =>
          refine reads_noOperation left h ?_
          rw [Parser.chainFrom, operatorAhead?_bind, h]
          rfl
      | some op =>
          obtain ⟨hpeek, belongs⟩ := operatorAhead?_eq_some h
          have hrest : ∀ place mid, s.After [⟨.operator op, place⟩] mid →
              Reads follow
                (fun x : Derivation (.one l.operand) × Derivation (.operations l) =>
                  x.1.tokens ++ x.2.tokens)
                (fun x => x.2.tree (Parser.binary op left x.1.tree place))
                (operand >>= fun right =>
                  Parser.chainFrom l.operators operand budget (Parser.binary op left right place))
                mid := by
            intro place mid hmid
            have hmidlen := hmid.length_lt (by simp)
            refine .bind (fun right rest => rest.tree (Parser.binary op left right.tree place))
              (hop mid (hmid.closed hs) (by omega)) ?_ (fun d r hr => allows_followOperand d hr)
            intro right rest hrest
            have hrestlen := hrest.length_le
            exact ih _ (hrest.closed (hmid.closed hs)) (by omega) (by omega)
          have hreads := Reads.expectThen (f := fun token => operand >>= fun right =>
            Parser.chainFrom l.operators operand budget (Parser.binary op left right token.span))
            _ hs (by simp) hrest
          refine (hreads.congr ?_).alternativeByPeek
            (fun x => .moreOperations l hl op belongs x.1 x.2.1 x.2.2)
            (fun _ => rfl) (fun _ => rfl) ?_
          · rw [Parser.chainFrom, operatorAhead?_bind, h]
            exact Reads.bind_congr (Reads.next_eq_expect (by rw [hpeek]))
          · intro c w hc
            rw [hpeek] at hc
            cases c with
            | noOperation =>
                rw [tokens, fits_nil_cons, hfollow op belongs] at hc
                cases hc
            | onlyOperation _ once =>
                rw [hl] at once
                cases once
            | moreOperations _ often op' belongs' place right rest =>
                rw [tokens, fits_cons_cons] at hc
                cases hc.1
                exact ⟨(_, right, rest), rfl⟩

/-- A level that goes on. -/
theorem reads_chain (hl : l.goesOn = true) (hfollow : l.Delimits follow)
    (hop : ReadsUpTo (n + 1) (l.followOperand follow) (.one l.operand) operand) :
    ReadsUpTo (n + 1) follow (.one (.level l)) (Parser.chain l.operators operand n) := by
  intro s hs hlen
  have hrest : ∀ (first : Derivation (.one l.operand)) mid, s.After first.tokens mid →
      Reads follow tokens (fun d : Derivation (.operations l) => d.tree first.tree)
        (Parser.chainFrom l.operators operand n first.tree) mid := by
    intro first mid hmid
    have hmidlen := hmid.length_lt first.length_tokens_pos
    exact reads_chainFrom hl hfollow hop n first.tree (hmid.closed hs) (by omega) (by omega)
  have hreads := (hop s hs hlen).bind _ hrest fun d r hr => allows_followOperand d hr
  refine hreads.map (fun x => .level l x.1 x.2) (fun _ => rfl) (fun _ => rfl) ?_
  intro d
  cases d with
  | level _ first rest => exact ⟨(first, rest), rfl⟩

/-- The operations of a level that takes at most one. -/
theorem reads_atMostOneFrom (hl : l.goesOn = false) (hfollow : l.Delimits follow)
    (hop : ReadsUpTo n (l.followOperand follow) (.one l.operand) operand)
    (left : Node) (hs : s.Closed) (hlen : s.ahead.length ≤ n) :
    Reads follow tokens (fun d : Derivation (.operations l) => d.tree left)
      (do
        match ← Parser.operatorAhead? l.operators with
        | none => return left
        | some op =>
          let token ← Parser.next
          let right ← operand
          return Parser.binary op left right token.span) s := by
  cases h : (s.peek.lexeme.operator?).filter l.operators with
  | none =>
      refine reads_noOperation left h ?_
      rw [operatorAhead?_bind, h]
      rfl
  | some op =>
      obtain ⟨hpeek, belongs⟩ := operatorAhead?_eq_some h
      have hright : ∀ place mid, s.After [⟨.operator op, place⟩] mid →
          Reads follow tokens
            (fun right : Derivation (.one l.operand) => Parser.binary op left right.tree place)
            (operand >>= fun right => pure (Parser.binary op left right place)) mid := by
        intro place mid hmid
        have hmidlen := hmid.length_le
        have hweak := (hop mid (hmid.closed hs) (by omega)).weaken fun _ => l.followOperand_of_follow
        exact hweak.andThen fun _ _ _ => rfl
      have hreads := Reads.expectThen (f := fun token => operand >>= fun right =>
        pure (Parser.binary op left right token.span)) _ hs (by simp) hright
      refine (hreads.congr ?_).alternativeByPeek
        (fun x => .onlyOperation l hl op belongs x.1 x.2) (fun _ => rfl) (fun _ => rfl) ?_
      · rw [operatorAhead?_bind, h]
        exact Reads.bind_congr (Reads.next_eq_expect (by rw [hpeek]))
      · intro c w hc
        rw [hpeek] at hc
        cases c with
        | noOperation =>
            rw [tokens, fits_nil_cons, hfollow op belongs] at hc
            cases hc
        | onlyOperation _ once op' belongs' place right =>
            rw [tokens, fits_cons_cons] at hc
            cases hc.1
            exact ⟨(_, right), rfl⟩
        | moreOperations _ often =>
            rw [hl] at often
            cases often

/-- A level that takes at most one operator. -/
theorem reads_atMostOne (hl : l.goesOn = false) (hfollow : l.Delimits follow)
    (hop : ReadsUpTo n (l.followOperand follow) (.one l.operand) operand) :
    ReadsUpTo n follow (.one (.level l)) (Parser.atMostOne l.operators operand) := by
  intro s hs hlen
  have hreads : Reads follow _ _ (Parser.atMostOne l.operators operand) s :=
    .bind (fun first rest => rest.tree first.tree) (hop s hs hlen)
      (fun first mid hmid => reads_atMostOneFrom hl hfollow hop first.tree (hmid.closed hs)
        (Nat.le_trans hmid.length_le hlen))
      fun d r hr => allows_followOperand d hr
  refine hreads.map (fun x => .level l x.1 x.2) (fun _ => rfl) (fun _ => rfl) ?_
  intro d
  cases d with
  | level _ first rest => exact ⟨(first, rest), rfl⟩

end Levels

/-! ## Lists -/

section Lists

variable {p : Phrase} {item : Parser Node} {n : Nat} {s : Token.Stream}

theorem sees_bind {β : Type} (l : Lexeme) (f : Bool → Parser β) :
    (Parser.sees l >>= f) s = f (s.peek.lexeme == l) s := rfl

/-- A lexeme that comes next is taken. -/
theorem accept_bind_of_eq {β : Type} {l : Lexeme} (f : Bool → Parser β) (h : s.peek.lexeme = l) :
    (Parser.accept l >>= f) s = (Parser.expect l >>= fun _ => f true) s := by
  have haccept : Parser.accept l s = (Parser.expect l >>= fun _ => pure true) s := by
    rw [Parser.accept, sees_bind, beq_iff_eq.2 h]
    exact Reads.bind_congr (Reads.next_eq_expect h)
  rw [Reads.bind_congr haccept]
  simp

/-- A lexeme that does not come next is left. -/
theorem accept_bind_of_ne {β : Type} {l : Lexeme} (f : Bool → Parser β) (h : s.peek.lexeme ≠ l) :
    (Parser.accept l >>= f) s = f false s := by
  have haccept : Parser.accept l s = .ok (false, s) := by
    rw [Parser.accept, sees_bind, beq_eq_false_iff_ne.2 h]
    rfl
  exact Reads.bind_ok haccept

/-- What follows an item: a comma and more items, or nothing. -/
theorem reads_afterItem (item : Parser Node) (budget : Nat) (first : Node) (hs : s.Closed)
    (hmore : ∀ comma mid, s.After [⟨.mark .comma, comma⟩] mid →
      Reads (· == .mark .closeParen) tokens (tree (s := .separated p))
        (Parser.commaSeparated item budget) mid) :
    Reads (· == .mark .closeParen)
      (fun o : Option (Span × Derivation (.separated p)) =>
        o.elim [] fun x => ⟨.mark .comma, x.1⟩ :: x.2.tokens)
      (fun o => first :: o.elim [] fun x => x.2.tree)
      (do
        if ← Parser.accept (.mark .comma) then
          return first :: (← Parser.commaSeparated item budget)
        else
          return [first]) s := by
  by_cases h : s.peek.lexeme = .mark .comma
  · have hreads : Reads (· == .mark .closeParen) _ _
        (Parser.expect (.mark .comma) >>= fun _ =>
          Parser.commaSeparated item budget >>= fun rest => pure (first :: rest)) s :=
      .expectThen (fun _ (d : Derivation (.separated p)) => first :: d.tree) hs (by simp)
        fun comma mid hmid => (hmore comma mid hmid).andThen fun _ _ _ => rfl
    refine (hreads.congr (accept_bind_of_eq _ h)).alternativeByPeek
      some (fun _ => rfl) (fun _ => rfl) ?_
    rintro (_ | x) w hfits
    · rw [Option.elim_none, fits_nil_cons, h] at hfits
      cases hfits
    · exact ⟨x, rfl⟩
  · refine .accepts none s (accept_bind_of_ne _ h) (.refl s) ?_
    rintro (_ | x) hfits
    · rfl
    · rw [Option.elim_some, Option.elim_none, List.nil_append, fits_cons_cons] at hfits
      exact absurd (congrArg Token.lexeme hfits.1) h

/-- Nothing is ahead, so a phrase is refused at the end of the input. -/
theorem exists_refusal {follow : Lexeme → Bool} (hnil : s.ahead = [])
    (h : Reads follow tokens (tree (s := .one p)) item s) :
    ∃ f : Fault, item s = .error f ∧ f.Blames s.peek := by
  cases h with
  | accepts d rest run after =>
      have hlt := after.length_lt d.length_tokens_pos
      rw [hnil] at hlt
      cases hlt
  | refuses f taken rest run after blames =>
      obtain ⟨htaken, hrest⟩ := List.append_eq_nil_iff.1 (after.ahead.symm.trans hnil)
      have hpeek : rest.peek = s.peek := by
        simp [Token.Stream.peek, Token.Stream.peekNth, hnil, hrest, after.stop]
      exact ⟨f, run, hpeek ▸ blames⟩

/-- Items with commas between them. -/
theorem reads_commaSeparated (hitem : ReadsUpTo n closesExpression (.one p) item)
    (hs : s.Closed) (budget : Nat) (hlen : s.ahead.length ≤ budget) (hn : budget ≤ n) :
    Reads (· == .mark .closeParen) tokens (tree (s := .separated p))
      (Parser.commaSeparated item budget) s := by
  induction budget generalizing s with
  | zero =>
      have hnil : s.ahead = [] := List.length_eq_zero_iff.1 (Nat.le_zero.1 hlen)
      obtain ⟨f, run, blames⟩ := exists_refusal hnil (hitem s hs (Nat.le_trans hlen hn))
      refine reads_of_refusal rfl (Reads.bind_error run) blames ?_
      rw [peek_of_ahead_nil hs hnil]
      exact Symbol.starts_endOfInput _
  | succ budget ih =>
      have hreads : Reads (· == .mark .closeParen) _ _
          (Parser.commaSeparated item (budget + 1)) s :=
        .bind (fun first (o : Option (Span × Derivation (.separated p))) =>
            first.tree :: o.elim [] fun x => x.2.tree)
          (hitem s hs (Nat.le_trans hlen hn))
          (fun first mid hmid => by
            have hmidlen := hmid.length_lt first.length_tokens_pos
            refine reads_afterItem item budget first.tree (hmid.closed hs) ?_
            intro comma rest hrest
            have hrestlen := hrest.length_le
            exact ih (hrest.closed (hmid.closed hs)) (by omega) (by omega))
          (by
            rintro (_ | x) r hr
            · refine hr.imp fun l hl => ?_
              rw [eq_of_beq hl]
              rfl
            · exact allows_cons.2 rfl)
      refine hreads.map
        (fun x => x.2.elim (.lastItem p x.1) fun y => .moreItems p x.1 y.1 y.2) ?_ ?_ ?_
      · rintro ⟨first, _ | ⟨comma, rest⟩⟩
        · simp [tokens]
        · rfl
      · rintro ⟨first, _ | ⟨comma, rest⟩⟩ <;> rfl
      · intro d
        cases d with
        | lastItem _ first => exact ⟨(first, none), rfl⟩
        | moreItems _ first comma rest => exact ⟨(first, some (comma, rest)), rfl⟩

/-- What follows an opening parenthesis. -/
theorem reads_afterOpening {follow : Lexeme → Bool} (hp : p.starts (.mark .closeParen) = false)
    (hitem : ReadsUpTo n closesExpression (.one p) item) (opening : Span) (hs : s.Closed)
    (hlen : s.ahead.length ≤ n) :
    Reads follow
      (fun x : Option (Derivation (.separated p)) × Span =>
        x.1.elim [] tokens ++ [⟨.mark .closeParen, x.2⟩])
      (fun x => (x.1.elim [] tree, opening))
      (do
        let items ← if ← Parser.sees (.mark .closeParen) then pure []
          else Parser.commaSeparated item n
        let _ ← Parser.expect (.mark .closeParen)
        return (items, opening)) s := by
  by_cases h : s.peek.lexeme = .mark .closeParen
  · have hreads : Reads follow _ _
        (Parser.expect (.mark .closeParen) >>= fun _ => pure (([] : List Node), opening)) s :=
      .andThen (.expect hs (by simp)) fun _ _ _ => rfl
    refine (hreads.congr ?_).alternativeByPeek (fun closing => (none, closing))
      (fun _ => rfl) (fun _ => rfl) ?_
    · rw [sees_bind, beq_iff_eq.2 h]
      rfl
    · rintro ⟨_ | d, closing⟩ w hfits
      · exact ⟨closing, rfl⟩
      · obtain ⟨t, ts, ht, hstarts⟩ := d.exists_head rfl
        rw [Option.elim_some, ht, List.cons_append, fits_cons_cons] at hfits
        rw [← hfits.1, h, Symbol.starts, hp] at hstarts
        cases hstarts
  · have hreads : Reads follow _ _
        (Parser.commaSeparated item n >>= fun items =>
          Parser.expect (.mark .closeParen) >>= fun _ => pure (items, opening)) s :=
      .thenExpect (reads_commaSeparated hitem hs n hlen (Nat.le_refl n)) hs (by simp) rfl
        fun items => (items, opening)
    refine (hreads.congr ?_).alternativeByPeek (fun x => (some x.1, x.2))
      (fun _ => rfl) (fun _ => rfl) ?_
    · rw [sees_bind, beq_eq_false_iff_ne.2 h]
      rfl
    · rintro ⟨_ | d, closing⟩ w hfits
      · rw [Option.elim_none, List.nil_append, fits_cons_cons] at hfits
        exact absurd (congrArg Token.lexeme hfits.1) h
      · exact ⟨(d, closing), rfl⟩

/-- A list in parentheses. -/
theorem reads_parenthesized {follow : Lexeme → Bool} (hp : p.starts (.mark .closeParen) = false)
    (hitem : ReadsUpTo n closesExpression (.one p) item) :
    ReadsUpTo n follow (.parenthesized p) (Parser.parenthesized item n) := by
  intro s hs hlen
  have hreads : Reads follow _ _ (Parser.parenthesized item n) s :=
    .expectThen
      (fun opening (x : Option (Derivation (.separated p)) × Span) =>
        (x.1.elim [] tree, opening))
      hs (by simp)
      fun opening mid hmid => reads_afterOpening hp hitem opening (hmid.closed hs)
        (Nat.le_trans hmid.length_le hlen)
  refine hreads.map
    (fun x => x.2.1.elim (.noItems p x.1 x.2.2) fun list => .items p x.1 list x.2.2) ?_ ?_ ?_
  · rintro ⟨opening, _ | list, closing⟩ <;> rfl
  · rintro ⟨opening, _ | list, closing⟩ <;> rfl
  · intro d
    cases d with
    | noItems _ opening closing => exact ⟨(opening, none, closing), rfl⟩
    | items _ opening list closing => exact ⟨(opening, some list, closing), rfl⟩

/-- A parameter, whatever follows it. -/
theorem reads_parameter {follow : Lexeme → Bool} :
    ReadsUpTo n follow (.one .parameter) Parser.parameter := by
  intro s hs _
  have hreads : Reads follow _ _ Parser.parameter s :=
    .andThen (.expectName hs) fun _ _ _ => rfl
  refine hreads.map (fun x => .parameter x.1 x.2) (fun _ => rfl) (fun _ => rfl) ?_
  intro d
  cases d with
  | parameter spelling place => exact ⟨(spelling, place), rfl⟩

end Lists

/-! ## Expressions -/

section Expressions

variable {follow : Lexeme → Bool} {nested : Parser Node} {n : Nat} {s : Token.Stream}

theorem peekNth_two (s : Token.Stream) : s.peekNth 2 = s.advance.peek := by
  obtain ⟨ahead, stop⟩ := s
  cases ahead <;> rfl

/-- A name that an opening parenthesis follows is a callee. -/
theorem reads_call {callee : String} (hfollow : follow (.mark .openParen) = false)
    (hnested : ReadsUpTo n closesExpression (.one .expression) nested) (hs : s.Closed)
    (hlen : s.ahead.length ≤ n + 1) (hname : s.peek.lexeme = .name callee)
    (hopen : s.advance.peek.lexeme = .mark .openParen) :
    Reads follow tokens (tree (s := .one .primary)) (Parser.call nested n) s := by
  have hreads : Reads follow _ _ (Parser.call nested n) s :=
    .expectNameThen
      (fun x (d : Derivation (.parenthesized .expression)) =>
        (⟨.call, x.1, x.2, [.inner .arguments d.tree.2 d.tree.1]⟩ : Node))
      hs fun x mid hmid => by
        have hmidlen := hmid.length_lt (by simp)
        refine .andThen (reads_parenthesized rfl hnested mid (hmid.closed hs) (by omega)) ?_
        intro d rest _
        rfl
  have hafter : s.After [s.peek] s.advance := .advance hs (by simp [hname])
  obtain ⟨d⟩ : Nonempty (Derivation (.parenthesized .expression)) := inferInstance
  refine hreads.alternative (fun x => .call x.1.1 x.1.2 x.2) (fun _ => rfl) (fun _ => rfl)
    ((callee, s.peek.span), d) ?_ hafter ?_
  · rw [← hname]
    exact List.cons_prefix_cons.2 ⟨rfl, List.nil_prefix⟩
  · intro c w hc
    cases c with
    | call spelling place arguments => exact ⟨((spelling, place), arguments), rfl⟩
    | name spelling place =>
        rw [tokens, List.singleton_append, fits_cons_cons, fits_nil_cons, hopen, hfollow] at hc
        cases hc.2
    | number | text | group =>
        rw [tokens, List.singleton_append, fits_cons_cons] at hc
        rw [hc.1] at hname
        cases hname

/-- A name that no opening parenthesis follows stands for itself. -/
theorem reads_name {spelling : String} {p : Parser Node} (hs : s.Closed)
    (hname : s.peek.lexeme = .name spelling)
    (hopen : s.advance.peek.lexeme ≠ .mark .openParen)
    (run : p s = .ok (.leaf .name spelling s.peek.span, s.advance)) :
    Reads follow tokens (tree (s := .one .primary)) p s := by
  have hpeek : s.peek = ⟨.name spelling, s.peek.span⟩ := by rw [← hname]
  refine .accepts (.name spelling s.peek.span) s.advance run ?_ ?_
  · rw [tokens, ← hpeek]
    exact .advance hs (by simp [hname])
  · intro c hc
    rw [tokens, List.singleton_append] at hc
    cases c with
    | name spelling' place =>
        rw [tokens, fits_cons_cons] at hc
        cases hc.1
        rfl
    | call callee place arguments =>
        rw [tokens, fits_cons_cons] at hc
        have hstarts := starts_of_fits rfl hc.2
        exact absurd (eq_of_beq hstarts) hopen
    | number | text | group =>
        rw [tokens, fits_cons_cons] at hc
        cases hc.1

/-- An expression in parentheses. -/
theorem reads_inParentheses (hnested : ReadsUpTo n closesExpression (.one .expression) nested)
    (hs : s.Closed) (hlen : s.ahead.length ≤ n + 1) :
    Reads follow
      (fun x : Span × Derivation (.one .expression) × Span =>
        ⟨.mark .openParen, x.1⟩ :: (x.2.1.tokens ++ [⟨.mark .closeParen, x.2.2⟩]))
      (fun x => x.2.1.tree)
      (do
        let _ ← Parser.expect (.mark .openParen)
        let inside ← nested
        let _ ← Parser.expect (.mark .closeParen)
        return inside) s := by
  have hreads : Reads follow _ _
      (Parser.expect (.mark .openParen) >>= fun _ => nested >>= fun inside =>
        Parser.expect (.mark .closeParen) >>= fun _ => pure inside) s :=
    .expectThen (fun _ (x : Derivation (.one .expression) × Span) => x.1.tree) hs (by simp)
      fun opening mid hmid =>
        have hmidlen := hmid.length_lt (by simp)
        .thenExpect (hnested mid (hmid.closed hs) (by omega)) (hmid.closed hs) (by simp) rfl id
  exact hreads

/-- A token that no expression starts with. -/
theorem reads_noPrimary {p : Parser Node} (hstarts : startsExpression s.peek.lexeme = false)
    (run : p s = Parser.refuse .expression s) :
    Reads follow tokens (tree (s := .one .primary)) p s := by
  refine (Reads.refuse .expression ?_).congr run
  intro d hfits
  have htrue := starts_of_fits rfl hfits
  exact absurd (hstarts.symm.trans htrue) nofun

theorem reads_primary (hfollow : follow (.mark .openParen) = false)
    (hnested : ReadsUpTo n closesExpression (.one .expression) nested) :
    ReadsUpTo (n + 1) follow (.one .primary) (Parser.primary nested n) := by
  intro s hs hlen
  cases hlex : s.peek.lexeme with
  | number digits =>
      have hpeek : s.peek = ⟨.number digits, s.peek.span⟩ := by rw [← hlex]
      refine .token hs (a := .number digits s.peek.span) ?_ hpeek (by simp) rfl ?_
      · rw [Parser.primary, Reads.peek_bind, hlex]
        rfl
      · intro c w hc
        cases c with
        | number =>
            rw [tokens, fits_cons_cons] at hc
            cases hc.1
            rfl
        | text | name | call | group =>
            rw [tokens, fits_cons_cons] at hc
            cases hc.1
  | text content =>
      have hpeek : s.peek = ⟨.text content, s.peek.span⟩ := by rw [← hlex]
      refine .token hs (a := .text content s.peek.span) ?_ hpeek (by simp) rfl ?_
      · rw [Parser.primary, Reads.peek_bind, hlex]
        rfl
      · intro c w hc
        cases c with
        | text =>
            rw [tokens, fits_cons_cons] at hc
            cases hc.1
            rfl
        | number | name | call | group =>
            rw [tokens, fits_cons_cons] at hc
            cases hc.1
  | name spelling =>
      have hrun : Parser.primary nested n s =
          (if ((s.peekNth 2).lexeme == .mark .openParen) = true then Parser.call nested n
            else Parser.next >>= fun _ => pure (.leaf .name spelling s.peek.span)) s := by
        rw [Parser.primary, Reads.peek_bind, hlex]
        rfl
      rw [peekNth_two] at hrun
      by_cases hopen : s.advance.peek.lexeme = .mark .openParen
      · rw [beq_iff_eq.2 hopen] at hrun
        exact (reads_call hfollow hnested hs hlen hlex hopen).congr hrun
      · rw [beq_eq_false_iff_ne.2 hopen] at hrun
        exact reads_name hs hlex hopen hrun
  | mark m =>
      cases m with
      | openParen =>
          refine ((reads_inParentheses hnested hs hlen).congr ?_).alternativeByPeek
            (fun x => .group x.1 x.2.1 x.2.2) (fun _ => rfl) (fun _ => rfl) ?_
          · rw [Parser.primary, Reads.peek_bind, hlex]
            exact Reads.bind_congr (Reads.next_eq_expect hlex)
          · intro c w hc
            cases c with
            | group opening inside closing => exact ⟨(opening, inside, closing), rfl⟩
            | number | text | name | call =>
                rw [tokens, fits_cons_cons] at hc
                rw [hc.1] at hlex
                cases hlex
      | assign | comma | semicolon | closeParen | openBrace | closeBrace =>
          refine reads_noPrimary (by rw [hlex]; rfl) ?_
          rw [Parser.primary, Reads.peek_bind, hlex]
  | keyword | operator | endOfInput =>
      refine reads_noPrimary (by rw [hlex]; rfl) ?_
      rw [Parser.primary, Reads.peek_bind, hlex]

/-- The operator levels, from the primaries up. -/
theorem reads_logical (hnested : ReadsUpTo n closesExpression (.one .expression) nested) :
    ReadsUpTo (n + 1) closesExpression (.one (.level .logical)) (Parser.logical nested n) := by
  have hlogical : Level.logical.Delimits closesExpression := by
    intro op _
    rfl
  have hrelation : Level.relation.Delimits (Level.logical.followOperand closesExpression) := by
    intro op
    rcases op with op | op | op <;> cases op <;> decide
  have hsum : Level.sum.Delimits
      (Level.relation.followOperand (Level.logical.followOperand closesExpression)) := by
    intro op
    rcases op with op | op | op <;> cases op <;> decide
  have hproduct : Level.product.Delimits (Level.sum.followOperand
      (Level.relation.followOperand (Level.logical.followOperand closesExpression))) := by
    intro op
    rcases op with op | op | op <;> cases op <;> decide
  exact reads_atMostOne rfl hlogical <| reads_atMostOne rfl hrelation <|
    reads_chain rfl hsum <| reads_chain rfl hproduct <| reads_primary rfl hnested

/-- What goes on after a name within the operator levels. -/
def followsName : Lexeme → Bool
  | .operator _ | .mark .openParen => true
  | _ => false

/-- The symbols between the operators of a level, and the levels themselves. -/
def Symbol.isOperand : Symbol → Bool
  | .one (.level _) | .one .primary => true
  | _ => false

theorem Level.isOperand_operand (l : Level) : (Symbol.one l.operand).isOperand = true := by
  cases l <;> rfl

/-- After a name that it starts with, an operand goes on as a call or an operation does. -/
theorem followsName_of_tokens {sym : Symbol} (d : Derivation sym) (hsym : sym.isOperand = true)
    {spelling : String} {place : Span} {t : Token} {r : List Token}
    (h : d.tokens = ⟨.name spelling, place⟩ :: t :: r) : followsName t.lexeme = true := by
  induction d generalizing t r with
  | level l first rest ih =>
      obtain ⟨t', ts, ht', -⟩ := first.exists_head rfl
      cases ts with
      | nil =>
          rw [tokens, ht'] at h
          obtain ⟨hnil, -⟩ | ⟨op, ops, hop, hstarts⟩ := rest.head_tokens
          · rw [hnil] at h
            cases h
          · rw [hop] at h
            cases h
            cases hlex : t.lexeme with
            | operator => rfl
            | _ =>
                rw [hlex] at hstarts
                cases hstarts
      | cons t'' ts =>
          rw [tokens, ht'] at h
          cases h
          exact ih l.isOperand_operand ht'
  | name =>
      rw [tokens] at h
      cases h
  | call callee place arguments =>
      obtain ⟨t', ts, ht', hstarts⟩ := arguments.exists_head rfl
      rw [tokens, ht'] at h
      cases h
      rw [eq_of_beq hstarts]
      rfl
  | number | text | group =>
      rw [tokens] at h
      cases h
  | _ => cases hsym

/-- No equals sign follows a name within the operator levels, or after them. -/
theorem not_fits_assign {d : Derivation (.one (.level .logical))} {spelling : String} {t t' : Token}
    {w : List Token} (hname : t.lexeme = .name spelling) (hassign : t'.lexeme = .mark .assign) :
    ¬ Fits closesExpression d.tokens (t :: t' :: w) := by
  intro hfits
  obtain ⟨t'', ts, ht, -⟩ := d.exists_head rfl
  rw [ht, fits_cons_cons] at hfits
  obtain ⟨rfl, hfits⟩ := hfits
  cases ts with
  | nil =>
      rw [fits_nil_cons, hassign] at hfits
      cases hfits
  | cons t'' ts =>
      rw [fits_cons_cons] at hfits
      obtain ⟨rfl, -⟩ := hfits
      have hpeek : t = ⟨.name spelling, t.span⟩ := by rw [← hname]
      rw [hpeek] at ht
      have hfollows := followsName_of_tokens d rfl ht
      rw [hassign] at hfollows
      cases hfollows

/-- A name that an equals sign follows is a target. -/
theorem reads_assign {target : String}
    (hnested : ReadsUpTo n closesExpression (.one .expression) nested) (hs : s.Closed)
    (hlen : s.ahead.length ≤ n + 1) (hname : s.peek.lexeme = .name target)
    (hassign : s.advance.peek.lexeme = .mark .assign) :
    Reads closesExpression tokens (tree (s := .one .expression))
      (do
        let (target, span) ← Parser.expectName
        let equals ← Parser.expect (.mark .assign)
        let value ← nested
        return .inner .assignment equals.span [.leaf .name target span, value]) s := by
  have hreads : Reads closesExpression _ _
      (Parser.expectName >>= fun x => Parser.expect (.mark .assign) >>= fun equals =>
        nested >>= fun value =>
          pure (Node.inner .assignment equals.span [.leaf .name x.1 x.2, value])) s :=
    .expectNameThen
      (fun x (y : Span × Derivation (.one .expression)) =>
        Node.inner .assignment y.1 [.leaf .name x.1 x.2, y.2.tree])
      hs fun x mid hmid =>
        .expectThen
          (fun equals (value : Derivation (.one .expression)) =>
            Node.inner .assignment equals [.leaf .name x.1 x.2, value.tree])
          (hmid.closed hs) (by simp) fun equals rest hrest => by
            have hmidlen := hmid.length_lt (by simp)
            have hrestlen := hrest.length_le
            refine .andThen (hnested rest (hrest.closed (hmid.closed hs)) (by omega)) ?_
            intro d _ _
            rfl
  have hafter : s.After [s.peek] s.advance := .advance hs (by simp [hname])
  refine hreads.alternative (fun x => .assignment x.1.1 x.1.2 x.2.1 x.2.2)
    (fun _ => rfl) (fun _ => rfl)
    ((target, s.peek.span), (.start, filler .expression)) ?_ hafter ?_
  · rw [← hname]
    exact List.cons_prefix_cons.2 ⟨rfl, List.nil_prefix⟩
  · intro c w hc
    cases c with
    | assignment spelling place equals value =>
        exact ⟨((spelling, place), (equals, value)), rfl⟩
    | logical inside =>
        exact absurd hc (not_fits_assign hname hassign)

/-- An expression is an assignment if a name and an equals sign come next. -/
theorem reads_assignment (hnested : ReadsUpTo n closesExpression (.one .expression) nested) :
    ReadsUpTo (n + 1) closesExpression (.one .expression) (Parser.assignment nested n) := by
  intro s hs hlen
  have hlogical := reads_logical hnested s hs hlen
  by_cases hname : ∃ spelling, s.peek.lexeme = .name spelling
  · obtain ⟨spelling, hname⟩ := hname
    have hahead : Parser.assignmentAhead s = .ok (s.advance.peek.lexeme == .mark .assign, s) := by
      have hget : (get : Parser Token.Stream) s = .ok (s, s) := rfl
      rw [← peekNth_two, Parser.assignmentAhead, Reads.bind_ok hget, hname]
      rfl
    by_cases hassign : s.advance.peek.lexeme = .mark .assign
    · refine (reads_assign hnested hs hlen hname hassign).congr ?_
      rw [Parser.assignment, Reads.bind_ok hahead, beq_iff_eq.2 hassign]
      rfl
    · have hafter : s.After [s.peek] s.advance := .advance hs (by simp [hname])
      have hpeek : s.peek = ⟨.name spelling, s.peek.span⟩ := by rw [← hname]
      refine (hlogical.congr ?_).alternative .logical (fun _ => rfl) (fun _ => rfl)
        (ofPrimary (.name spelling s.peek.span) .logical) ?_ hafter ?_
      · rw [beq_eq_false_iff_ne.2 hassign] at hahead
        exact Reads.bind_ok hahead
      · refine ⟨[], ?_⟩
        rw [List.append_nil, tokens_ofPrimary, tokens, ← hpeek]
      · intro c w hc
        cases c with
        | logical inside => exact ⟨inside, rfl⟩
        | assignment target place equals value =>
            rw [tokens, List.singleton_append, fits_cons_cons, fits_cons_cons] at hc
            exact absurd (congrArg Token.lexeme hc.2.1) hassign
  · have hahead : Parser.assignmentAhead s = .ok (false, s) := by
      have hget : (get : Parser Token.Stream) s = .ok (s, s) := rfl
      rw [Parser.assignmentAhead, Reads.bind_ok hget]
      cases hlex : s.peek.lexeme with
      | name spelling => exact absurd ⟨spelling, hlex⟩ hname
      | _ => rfl
    refine (hlogical.congr ?_).alternativeByPeek .logical (fun _ => rfl) (fun _ => rfl) ?_
    · rw [Parser.assignment, Reads.bind_ok hahead]
      rfl
    · intro c w hc
      cases c with
      | logical inside => exact ⟨inside, rfl⟩
      | assignment target place equals value =>
          rw [tokens, fits_cons_cons] at hc
          exact absurd ⟨target, congrArg Token.lexeme hc.1⟩ hname

/-- Expressions, to any depth that the tokens ahead allow. -/
theorem reads_expression (n : Nat) :
    ReadsUpTo n closesExpression (.one .expression) (Parser.expression n) := by
  induction n with
  | zero =>
      intro s hs hlen
      have hnil : s.ahead = [] := List.length_eq_zero_iff.1 (Nat.le_zero.1 hlen)
      refine Reads.refuse .expression ?_
      intro d hfits
      have hstarts := starts_of_fits rfl hfits
      rw [peek_of_ahead_nil hs hnil] at hstarts
      cases hstarts
  | succ n ih => exact reads_assignment ih

end Expressions

end ScopeLang.Grammar
