-- SUMMARY: What it means that a walk keeps step with a parser up to the first end of input, and rules for putting such pairs together.
import ScopeLang.Proofs.Cursors
import ScopeLang.Proofs.ParseProgram
import Mathlib.Data.List.Infix

/-! # Keeping step

A cursor and a stream that face the same tokens up to the first end of input
may differ in all that lies behind it. `Tracks` says that a walk and a parser
cannot tell: whenever no more than `room` tokens come before that end of input,
the walk ends, the parser has the same answer, and both have taken the same
number of tokens, which is at most the number of those before the end. If the
answer is a value, at least `least` tokens were taken.

The rule for a second procedure after a first one passes on the room that the
first one leaves. A procedure that takes a token before it recurs therefore
recurs with less room, and that is why it ends.
-/

namespace ScopeLang

open Grammar (EndFree)

/-! ## Moving on -/

/-- The stream without its first `n` tokens. -/
def Token.Stream.forward (s : Token.Stream) (n : Nat) : Token.Stream :=
  { s with ahead := s.ahead.drop n }

/-- The cursor `n` places further on. -/
def Cursor.forward (c : Cursor) (n : Nat) : Cursor :=
  { c with position := c.position + n }

@[simp] theorem Token.Stream.length_ahead_forward (s : Token.Stream) (n : Nat) :
    (s.forward n).ahead.length = s.ahead.length - n :=
  List.length_drop

@[simp] theorem Token.Stream.forward_forward (s : Token.Stream) (m n : Nat) :
    (s.forward m).forward n = s.forward (m + n) := by
  simp [forward]

@[simp] theorem Cursor.forward_forward (c : Cursor) (m n : Nat) :
    (c.forward m).forward n = c.forward (m + n) := by
  simp [forward, Nat.add_assoc]

/-- Up to the end of input, to look ahead is to look at the tokens in order. -/
theorem Token.Stream.getElem?_peekNth (s : Token.Stream) {n : Nat}
    (hn : n - 1 ≤ s.ahead.length) : (s.ahead ++ [s.stop])[n - 1]? = some (s.peekNth n) := by
  rw [peekNth]
  by_cases h : n - 1 < s.ahead.length
  · simp [h, List.getElem?_append_left, List.headD_eq_head?_getD]
  · have hlast : n - 1 = s.ahead.length := by omega
    simp [hlast]

namespace Walk

/-! ## What is faced -/

/-- The cursor and the stream both face the tokens of `view`, which has the first
end of input as its stop. -/
structure Faces (view : Token.Stream) (c : Cursor) (s : Token.Stream) : Prop where
  endFree : EndFree view.ahead
  closed : view.Closed
  cursor : view.ahead ++ [view.stop] <+: c.tokens.drop c.position
  stream : view.ahead ++ [view.stop] <+: s.ahead ++ [s.stop]

namespace Faces

variable {view s : Token.Stream} {c : Cursor} {n : Nat}

/-- The first end of input is inside of the vector. -/
theorem position_lt (h : Faces view c s) : c.position + view.ahead.length < c.tokens.length := by
  have hlen := h.cursor.length_le
  simp only [List.length_append, List.length_singleton, List.length_drop] at hlen
  omega

theorem length_le (h : Faces view c s) : view.ahead.length ≤ s.ahead.length := by
  have hlen := h.stream.length_le
  simpa using hlen

/-- Nothing else is faced as long as the first end of input is not passed. -/
theorem forward (h : Faces view c s) (hn : n ≤ view.ahead.length) :
    Faces (view.forward n) (c.forward n) (s.forward n) where
  endFree t ht := h.endFree t (List.mem_of_mem_drop ht)
  closed := h.closed
  cursor := by
    have hdrop := h.cursor.drop n
    rwa [List.drop_append_of_le_length hn, List.drop_drop] at hdrop
  stream := by
    have hdrop := h.stream.drop n
    rwa [List.drop_append_of_le_length hn,
      List.drop_append_of_le_length (Nat.le_trans hn h.length_le)] at hdrop

theorem getElem?_tokens (h : Faces view c s) (hn : n - 1 ≤ view.ahead.length) :
    c.tokens[c.position + (n - 1)]? = some (view.peekNth n) := by
  have hlen : n - 1 < (view.ahead ++ [view.stop]).length := by
    simp only [List.length_append, List.length_singleton]
    omega
  rw [← List.getElem?_drop, List.prefix_iff_getElem?.1 h.cursor _ hlen,
    ← List.getElem?_eq_getElem, view.getElem?_peekNth hn]

/-- A token before the first end of input does not end the input. -/
theorem isEnd_eq_false (h : Faces view c s) {i : Nat} (hi : i < view.ahead.length) {t : Token}
    (ht : c.tokens[c.position + i]? = some t) : t.isEnd = false := by
  have hget := h.getElem?_tokens (n := i + 1) (Nat.le_of_lt hi)
  rw [Nat.add_sub_cancel, ht] at hget
  have hview := view.getElem?_peekNth (n := i + 1) (Nat.le_of_lt hi)
  rw [Nat.add_sub_cancel, List.getElem?_append_left hi, ← hget] at hview
  exact beq_eq_false_iff_ne.2 (h.endFree t (List.mem_of_getElem? hview))

/-! ### Looking ahead -/

theorem peekNth (h : Faces view c s) (hn : n - 1 ≤ view.ahead.length) :
    Ends (Walk.peekNth n) c (.ok (view.peekNth n)) c := by
  have hlt := h.position_lt
  have hmin : min (c.position + (n - 1)) (c.tokens.length - 1) = c.position + (n - 1) := by omega
  refine .look ?_ (.done _ c)
  rw [Cursor.peekNth?, hmin, h.getElem?_tokens hn]

theorem peekNth_stream (h : Faces view c s) (hn : n - 1 ≤ view.ahead.length) :
    s.peekNth n = view.peekNth n := by
  have hlen : n - 1 < (view.ahead ++ [view.stop]).length := by
    simp only [List.length_append, List.length_singleton]
    omega
  have hget := List.prefix_iff_getElem?.1 h.stream _ hlen
  rw [← List.getElem?_eq_getElem, view.getElem?_peekNth hn,
    s.getElem?_peekNth (Nat.le_trans hn h.length_le)] at hget
  exact Option.some.inj hget

theorem peek (h : Faces view c s) : Ends Walk.peek c (.ok view.peek) c :=
  h.peekNth (Nat.zero_le _)

theorem peek_stream (h : Faces view c s) : s.peek = view.peek :=
  h.peekNth_stream (n := 1) (Nat.zero_le _)

theorem parser_peek (h : Faces view c s) : Parser.peek s = .ok (view.peek, s) := by
  rw [← h.peek_stream]
  rfl

/-- A token that does not end the input comes before the one that does. -/
theorem ahead_pos (h : Faces view c s) (hpeek : view.peek.lexeme ≠ .endOfInput) :
    0 < view.ahead.length := by
  rw [List.length_pos_iff]
  intro hnil
  exact hpeek (Grammar.peek_of_ahead_nil h.closed hnil)

/-- Without room only the end of input is faced. -/
theorem peek_of_le_zero (h : Faces view c s) (hlen : view.ahead.length ≤ 0) :
    view.peek.lexeme = .endOfInput :=
  Grammar.peek_of_ahead_nil h.closed (List.length_eq_zero_iff.1 (Nat.le_zero.1 hlen))

theorem next (h : Faces view c s) (hahead : 0 < view.ahead.length) :
    Ends Walk.next c (.ok view.peek) (c.forward 1) := by
  have hlt := h.position_lt
  have hget : c.tokens[c.position]? = some view.peek := h.getElem?_tokens (n := 1) (Nat.zero_le _)
  have hinside : c.position + 1 < c.tokens.length := by omega
  refine .take ?_ (.done _ _)
  rw [Cursor.next?, hget, Option.bind_eq_bind, Option.bind_some, if_pos hinside]
  rfl

theorem parser_next (h : Faces view c s) : Parser.next s = .ok (view.peek, s.forward 1) := by
  rw [← h.peek_stream, Token.Stream.forward, List.drop_one]
  rfl

end Faces

/-! ## One step -/

section Steps

variable {α β : Type} {j k least room room' : Nat} {w : Walk α} {p : Parser α}
  {f : α → Walk β} {g : α → Parser β} {view s : Token.Stream} {c : Cursor}

/-- The walk at the cursor and the parser on the stream end alike, after as many
tokens. -/
inductive InStep (least room : Nat) (w : Walk α) (p : Parser α) (c : Cursor)
    (s : Token.Stream) : Prop
  | accepts (a : α) (n : Nat) (moved : least ≤ n) (within : n ≤ room)
      (walk : Ends w c (.ok a) (c.forward n)) (run : p s = .ok (a, s.forward n))
  | refuses (e : Fault) (n : Nat) (within : n ≤ room)
      (walk : Ends w c (.error e) (c.forward n)) (run : p s = .error e)

/-- The walk keeps step with the parser wherever at most `room` tokens come before
the first end of input. -/
def Tracks (least room : Nat) (w : Walk α) (p : Parser α) : Prop :=
  ∀ view c s, Faces view c s → view.ahead.length ≤ room →
    InStep least view.ahead.length w p c s

namespace InStep

theorem any (h : InStep least room w p c s) : InStep 0 room w p c s := by
  cases h with
  | accepts a n moved within walk run => exact .accepts a n (Nat.zero_le n) within walk run
  | refuses e n within walk run => exact .refuses e n within walk run

theorem pure (a : α) : InStep 0 room (Pure.pure a) (Pure.pure a) c s :=
  .accepts a 0 (Nat.le_refl 0) (Nat.zero_le room) (.done a c) rfl

/-- One procedure after another, in the room that the first one leaves. -/
theorem bind (h : InStep j room w p c s)
    (hf : ∀ a n, j ≤ n → n ≤ room →
      InStep k (room - n) (f a) (g a) (c.forward n) (s.forward n)) :
    InStep j room (w >>= f) (p >>= g) c s := by
  cases h with
  | refuses e n within walk run =>
      exact .refuses e n within walk.bind_error (Grammar.Reads.bind_error run)
  | accepts a n moved within walk run =>
      cases hf a n moved within with
      | accepts b m moved' within' walk' run' =>
          refine .accepts b (n + m) (Nat.le_add_right_of_le moved) (by omega) ?_ ?_
          · exact walk.bind_ok (c.forward_forward n m ▸ walk')
          · rw [Grammar.Reads.bind_ok run, run', Token.Stream.forward_forward]
      | refuses e m within' walk' run' =>
          refine .refuses e (n + m) (by omega) ?_ ?_
          · exact walk.bind_ok (c.forward_forward n m ▸ walk')
          · rw [Grammar.Reads.bind_ok run, run']

/-- What only looks ahead leaves everything in place. -/
theorem look {a : α} {p : Parser β} (hw : Ends w c (.ok a) c) (h : InStep k room (f a) p c s) :
    InStep k room (w >>= f) p c s := by
  cases h with
  | accepts b n moved within walk run => exact .accepts b n moved within (hw.bind_ok walk) run
  | refuses e n within walk run => exact .refuses e n within (hw.bind_ok walk) run

/-- The parser may have looked ahead as well. -/
theorem parser_look {a : α} {w : Walk β} (hp : p s = .ok (a, s))
    (h : InStep k room w (g a) c s) : InStep k room w (p >>= g) c s := by
  have hrun : (p >>= g) s = g a s := Grammar.Reads.bind_ok hp
  cases h with
  | accepts b n moved within walk run => exact .accepts b n moved within walk (hrun.trans run)
  | refuses e n within walk run => exact .refuses e n within walk (hrun.trans run)

/-- The walk ends. -/
theorem exists_ends (h : InStep least room w p c s) :
    ∃ result n, Ends w c result (c.forward n) ∧ n ≤ room ∧ ∀ a, result = .ok a → least ≤ n := by
  cases h with
  | accepts a n moved within walk _ => exact ⟨.ok a, n, walk, within, fun _ _ => moved⟩
  | refuses e n within walk _ => exact ⟨.error e, n, walk, within, by simp⟩

/-- There is only one end, so the parser comes to the same one. -/
theorem run_eq (h : InStep least room w p c s) {result : Except Fault α} {n : Nat}
    (hends : Ends w c result (c.forward n)) : p s = result.map fun a => (a, s.forward n) := by
  cases h with
  | accepts a m _ _ walk run =>
      obtain ⟨rfl, hcursor⟩ := walk.unique hends
      obtain rfl : m = n := Nat.add_left_cancel (congrArg Cursor.position hcursor)
      exact run
  | refuses e _ _ walk run =>
      obtain ⟨rfl, -⟩ := walk.unique hends
      exact run

end InStep

namespace Faces

theorem bind (h : Faces view c s) (hw : InStep j view.ahead.length w p c s)
    (hf : ∀ a, Tracks k (view.ahead.length - j) (f a) (g a)) :
    InStep j view.ahead.length (w >>= f) (p >>= g) c s := by
  refine hw.bind (k := k) ?_
  intro a n hj hn
  have hlen := view.length_ahead_forward n
  have hstep := hf a _ _ _ (h.forward hn) (by omega)
  rwa [hlen] at hstep

theorem peekThen {f : Token → Walk α} {g : Token → Parser α} (h : Faces view c s)
    (hf : InStep k view.ahead.length (f view.peek) (g view.peek) c s) :
    InStep k view.ahead.length (Walk.peek >>= f) (Parser.peek >>= g) c s :=
  .look h.peek (.parser_look h.parser_peek hf)

theorem seesThen {l : Lexeme} {f : Bool → Walk α} {g : Bool → Parser α} (h : Faces view c s)
    (hf : InStep k view.ahead.length (f (view.peek.lexeme == l)) (g (view.peek.lexeme == l)) c s) :
    InStep k view.ahead.length (Walk.sees l >>= f) (Parser.sees l >>= g) c s :=
  .look (h.peek.bind_ok (.done _ c)) (.parser_look (Grammar.Reads.bind_ok h.parser_peek) hf)

/-- A token is taken only if it does not end the input. -/
theorem takes (h : Faces view c s) (hpeek : view.peek.lexeme ≠ .endOfInput) :
    InStep 1 view.ahead.length Walk.next Parser.next c s :=
  .accepts view.peek 1 (Nat.le_refl 1) (h.ahead_pos hpeek) (h.next (h.ahead_pos hpeek))
    h.parser_next

/-- The second token of lookahead is asked for only behind a name, so it lies at
most at the first end of input. -/
theorem assignmentAhead (h : Faces view c s) :
    ∃ b, Ends Walk.assignmentAhead c (.ok b) c ∧ Parser.assignmentAhead s = .ok (b, s) := by
  have hget : (get : Parser Token.Stream) s = .ok (s, s) := rfl
  rw [Parser.assignmentAhead, Grammar.Reads.bind_ok hget, h.peek_stream]
  cases hlex : view.peek.lexeme with
  | name spelling =>
      have hpos := h.ahead_pos (by simp [hlex])
      refine ⟨(view.peekNth 2).lexeme == .mark .assign, h.peek.bind_ok ?_, ?_⟩
      · rw [hlex]
        exact (h.peekNth (n := 2) hpos).bind_ok (.done _ c)
      · dsimp only
        rw [h.peekNth_stream (n := 2) hpos]
        rfl
  | _ => exact ⟨false, h.peek.bind_ok (by rw [hlex]; exact .done false c), rfl⟩

end Faces

/-! ## All steps -/

namespace Tracks

theorem within (h : Tracks least room w p) (hroom : room' ≤ room) : Tracks least room' w p :=
  fun view c s hfaces hlen => h view c s hfaces (Nat.le_trans hlen hroom)

theorem any (h : Tracks least room w p) : Tracks 0 room w p :=
  fun view c s hfaces hlen => (h view c s hfaces hlen).any

theorem pure (a : α) : Tracks 0 room (Pure.pure a) (Pure.pure a) :=
  fun _ _ _ _ _ => .pure a

theorem bind (hw : Tracks j room w p) (hf : ∀ a, Tracks k (room - j) (f a) (g a)) :
    Tracks j room (w >>= f) (p >>= g) := by
  intro view c s hfaces hlen
  refine hfaces.bind (k := k) (hw view c s hfaces hlen) ?_
  intro a
  exact (hf a).within (by omega)

/-- Without room a procedure that takes a token refuses, and what follows is not reached. -/
theorem bind_refused (hw : Tracks 1 0 w p) : Tracks least 0 (w >>= f) (p >>= g) := by
  intro view c s hfaces hlen
  cases hw view c s hfaces hlen with
  | accepts a n moved within => omega
  | refuses e n within walk run =>
      exact .refuses e n within walk.bind_error (Grammar.Reads.bind_error run)

/-! ### Calls -/

theorem routine {r : Routine} {p : Parser r.Value} (h : Tracks least room r.body p) :
    Tracks least room (Walk.routine r) p := by
  intro view c s hfaces hlen
  cases h view c s hfaces hlen with
  | accepts a n moved within walk run => exact .accepts a n moved within walk.routine run
  | refuses e n within walk run => exact .refuses e n within walk.routine run

theorem procedure {q : Procedure} {p : Parser Node} (h : Tracks least room q.body p) :
    Tracks least room (Walk.procedure q) p :=
  routine h

/-! ### Single tokens -/

theorem refuse (wanted : Wanted) :
    Tracks least room (Walk.refuse wanted : Walk α) (Parser.refuse wanted) := by
  intro view c s hfaces _
  refine hfaces.peekThen ?_
  split
  · exact .refuses _ 0 (Nat.zero_le _) (.fail _ c) rfl
  · exact .refuses _ 0 (Nat.zero_le _) (.fail _ c) rfl

theorem sees (l : Lexeme) : Tracks 0 room (Walk.sees l) (Parser.sees l) :=
  fun _ _ _ hfaces _ => hfaces.peekThen (.pure _)

theorem expect {l : Lexeme} (hl : l ≠ .endOfInput) :
    Tracks 1 room (Walk.expect l) (Parser.expect l) := by
  intro view c s hfaces hlen
  refine hfaces.seesThen ?_
  split
  · rename_i hsees
    exact hfaces.takes (by rwa [eq_of_beq hsees])
  · exact refuse (.lexeme l) view c s hfaces hlen

theorem accept {l : Lexeme} (hl : l ≠ .endOfInput) :
    Tracks 0 room (Walk.accept l) (Parser.accept l) := by
  intro view c s hfaces _
  refine hfaces.seesThen ?_
  split
  · rename_i hsees
    have htakes := hfaces.takes (by rwa [eq_of_beq hsees])
    exact (hfaces.bind htakes fun _ => .pure true).any
  · exact .pure false

theorem expectName : Tracks 1 room Walk.expectName Parser.expectName := by
  intro view c s hfaces hlen
  refine hfaces.peekThen ?_
  cases hlex : view.peek.lexeme with
  | name spelling => exact hfaces.bind (hfaces.takes (by simp [hlex])) fun _ => .pure _
  | _ => exact refuse .name view c s hfaces hlen

/-! ### Lists -/

/-- Items with a comma after each but the last. Each round starts at least one
token after the one before it. -/
theorem separated {q : Procedure} {p : Parser Node} {budget : Nat}
    (hitem : Tracks 1 room q.body p) (hbudget : budget ≤ room) :
    Tracks 1 budget (Walk.separated q) (Parser.commaSeparated p budget) := by
  induction budget with
  | zero =>
      -- The budget is used up only where no token is left, and no item is there either.
      exact (hitem.within hbudget).procedure.bind_refused
  | succ budget ih =>
      refine .bind (k := 0) (hitem.within hbudget).procedure fun first => ?_
      refine .bind (k := 0) (.accept (by simp)) fun more => ?_
      cases more with
      | true =>
          have hrest := ih (Nat.le_of_succ_le hbudget)
          exact .bind (Tracks.routine (r := .separated q) hrest).any fun rest =>
            .pure (first :: rest)
      | false => exact .pure [first]

/-- A list in parentheses. -/
theorem parenthesized {q : Procedure} {p : Parser Node} {budget : Nat}
    (hitem : Tracks 1 budget q.body p) :
    Tracks 1 (budget + 1) (Walk.parenthesized q) (Parser.parenthesized p budget) := by
  have hlist : Tracks 1 budget (Walk.routine (.separated q)) (Parser.commaSeparated p budget) :=
    (separated hitem (Nat.le_refl budget)).routine
  refine .bind (k := 0) (.expect (by simp)) fun opening => ?_
  refine .bind (k := 0) (.sees _) fun closes => ?_
  cases closes with
  | true => exact .bind (.pure []) fun items => .bind (.expect (by simp)) fun _ => .pure _
  | false => exact .bind hlist.any fun items => .bind (.expect (by simp)) fun _ => .pure _

/-- Statements up to the first one after which the lexeme comes. -/
theorem statementsUntil {nested : Parser Node} {budget : Nat} (l : Lexeme)
    (hnested : Tracks 1 room Walk.statement nested) (hbudget : budget ≤ room) :
    Tracks 1 budget (Walk.statementsUntil l)
      (Parser.itemsUntil (Parser.sees l) nested budget) := by
  induction budget with
  | zero => exact ((hnested.within hbudget).procedure (q := .statement)).bind_refused
  | succ budget ih =>
      refine .bind (k := 0) ((hnested.within hbudget).procedure (q := .statement)) fun first => ?_
      refine .bind (k := 0) (.sees l) fun done => ?_
      cases done with
      | true => exact .pure [first]
      | false =>
          have hrest := ih (Nat.le_of_succ_le hbudget)
          exact .bind (Tracks.routine (r := .statementsUntil l) hrest).any fun rest =>
            .pure (first :: rest)

end Tracks

end Steps

end Walk

end ScopeLang
