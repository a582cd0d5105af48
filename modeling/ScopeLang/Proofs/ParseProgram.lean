-- SUMMARY: Parsing a token sequence finds its only derivation, or blames the first token that no program goes on with.
import ScopeLang.Proofs.ParseStatement

/-! # Whole programs

The parser for programs reads the whole token sequence, so its verdict is about
the grammar alone. `parseTokens` succeeds on the texts of programs, with the
tree of their only derivation. Otherwise its fault is at the first token that
no program has after the tokens before it, which is the end of the input when
the sequence is the beginning of a program.
-/

namespace ScopeLang.Grammar

/-- A derivation of a program. -/
abbrev Program := Derivation (.one .program)

/-- The token sequence is a program. -/
def IsProgram (w : List Token) : Prop :=
  ∃ d : Program, d.tokens = w

/-- Some continuation makes the token sequence a program. -/
def Viable (w : List Token) : Prop :=
  ∃ v, IsProgram (w ++ v)

/-- No token of the sequence ends the input. -/
def EndFree (w : List Token) : Prop :=
  ∀ t ∈ w, t.lexeme ≠ .endOfInput

instance (w : List Token) : Decidable (EndFree w) :=
  inferInstanceAs (Decidable (∀ t ∈ w, t.lexeme ≠ .endOfInput))

/-! ## The verdict of the parser -/

section Verdict

variable {tokens w : List Token} {stop : Token}

theorem ofTokens_of_endFree (hw : EndFree w) :
    Token.Stream.ofTokens w = ⟨w, Token.Stream.endAfter w.getLast?⟩ := by
  unfold Token.Stream.ofTokens
  cases hlast : w.getLast? with
  | none => simp [List.getLast?_eq_none_iff.1 hlast]
  | some last =>
      have hend : last.isEnd = false :=
        beq_eq_false_iff_ne.2 (hw last (List.mem_of_getLast? hlast))
      simp [hend]

theorem ofTokens_append_end (w : List Token) (hstop : stop.isEnd = true) :
    Token.Stream.ofTokens (w ++ [stop]) = ⟨w, stop⟩ := by
  simp [Token.Stream.ofTokens, hstop]

/-- What the parser makes of a token sequence, which is `w` and then an end of input:
the derivation that it finds, which is the only one, or a token that it blames. -/
inductive Verdict (tokens w : List Token) (stop : Token) : Prop
  | accepted (d : Program) (run : parseTokens tokens = .ok d.tree) (text : d.tokens = w)
      (only : ∀ x : Program, x.tokens = w → x = d)
  | misplaced (f : Fault) (u v : List Token) (t : Token) (run : parseTokens tokens = .error f)
      (split : w = u ++ t :: v) (span : f.span = t.span) (code : f.code = .unexpectedToken)
      (viable : Viable u) (stuck : ¬ Viable (u ++ [t]))
  | incomplete (f : Fault) (run : parseTokens tokens = .error f) (span : f.span = stop.span)
      (code : f.code = .prematureEnd) (viable : Viable w) (stuck : ¬ IsProgram w)

theorem verdict (hw : EndFree w) (hs : Token.Stream.ofTokens tokens = ⟨w, stop⟩) :
    Verdict tokens w stop := by
  have hrun : parseTokens tokens = (Parser.program w.length ⟨w, stop⟩).map Prod.fst := by
    rw [parseTokens, hs]
    rfl
  have hend : (stop.lexeme == .endOfInput) = true := by
    have hstop := Token.Stream.isEnd_stop_ofTokens tokens
    rwa [hs] at hstop
  have hclosed : Token.Stream.Closed ⟨w, stop⟩ := eq_of_beq hend
  cases reads_program hclosed with
  | accepts d rest run after only =>
      have hpeek := peek_of_program hclosed run
      obtain ⟨ahead, stop'⟩ := rest
      obtain ⟨hahead, hstop⟩ := after
      subst hstop
      cases ahead with
      | nil =>
          have htext : d.tokens = w := by simpa using hahead.symm
          refine .accepted d (by rw [hrun, run]; rfl) htext ?_
          intro x hx
          refine only x ?_
          rw [hx, htext]
          exact Fits.of_allowed hend
      | cons t v =>
          refine absurd hpeek (hw t ?_)
          have hmem : t ∈ d.tokens ++ t :: v := by simp
          rwa [← hahead] at hmem
  | refuses f taken rest run after blames viable stuck =>
      obtain ⟨ahead, stop'⟩ := rest
      obtain ⟨hahead, hstop⟩ := after
      subst hstop
      have herror : parseTokens tokens = .error f := by
        rw [hrun, run]
        rfl
      have hviable : Viable taken := by
        obtain ⟨x, v, hv⟩ := viable
        exact ⟨v, x, hv.symm⟩
      cases ahead with
      | nil =>
          have htaken : taken = w := by simpa using hahead.symm
          subst htaken
          refine .incomplete f herror blames.span (blames.code.trans (if_pos hend)) hviable ?_
          rintro ⟨x, hx⟩
          refine stuck x ?_
          rw [hx]
          exact Fits.of_allowed hend
      | cons t v =>
          have hmem : t ∈ w := by
            have hmem : t ∈ taken ++ t :: v := by simp
            rwa [← hahead] at hmem
          have hnotEnd : ¬ t.isEnd = true := fun h => hw t hmem (eq_of_beq h)
          refine .misplaced f taken v t herror hahead blames.span
            (blames.code.trans (if_neg hnotEnd)) hviable ?_
          rintro ⟨v', x, hx⟩
          refine stuck x (Fits.of_isPrefix ?_)
          rw [hx]
          exact List.prefix_append _ _

end Verdict

/-! ## Acceptance -/

theorem Derivation.endFree_tokens {s : Symbol} (d : Derivation s) : EndFree d.tokens :=
  fun _ h => d.lexeme_ne_endOfInput h

/-- No token sequence has two derivations. -/
theorem program_unambiguous {d d' : Program} (h : d.tokens = d'.tokens) : d = d' := by
  cases verdict d.endFree_tokens (ofTokens_of_endFree d.endFree_tokens) with
  | accepted x run text only => exact (only d rfl).trans (only d' h.symm).symm
  | misplaced f u v t run split span code viable stuck =>
      refine absurd ?_ stuck
      exact ⟨v, d, by simpa using split⟩
  | incomplete f run span code viable stuck => exact absurd ⟨d, rfl⟩ stuck

/-- A token sequence is accepted as the program it is, and only if it is one. -/
theorem parseTokens_eq_ok_iff {tokens w : List Token} {stop : Token} (hw : EndFree w)
    (hs : Token.Stream.ofTokens tokens = ⟨w, stop⟩) {node : Node} :
    parseTokens tokens = .ok node ↔ ∃ d : Program, d.tokens = w ∧ d.tree = node := by
  cases verdict hw hs with
  | accepted d run text only =>
      constructor
      · intro h
        rw [run] at h
        cases h
        exact ⟨d, text, rfl⟩
      · rintro ⟨x, hx, rfl⟩
        rw [run, only x hx]
  | misplaced f u v t run split span code viable stuck =>
      constructor
      · intro h
        rw [run] at h
        cases h
      · rintro ⟨x, hx, -⟩
        refine absurd ?_ stuck
        exact ⟨v, x, by simpa [split] using hx⟩
  | incomplete f run span code viable stuck =>
      constructor
      · intro h
        rw [run] at h
        cases h
      · rintro ⟨x, hx, -⟩
        exact absurd ⟨x, hx⟩ stuck

/-- The parser accepts exactly the programs of the grammar, and its tree is that of
the one derivation that they have. -/
theorem parses_exactly_grammar (w : List Token) (hw : EndFree w) :
    (∀ node, parseTokens w = .ok node ↔ ∃ d : Program, d.tokens = w ∧ d.tree = node) ∧
      ∀ d d' : Program, d.tokens = w → d'.tokens = w → d = d' := by
  refine ⟨fun node => parseTokens_eq_ok_iff hw (ofTokens_of_endFree hw), ?_⟩
  intro d d' hd hd'
  exact program_unambiguous (hd.trans hd'.symm)

/-- The operators of `1 - 2 * 3 - 4;` group to the left, and the product first. -/
theorem parses_exactly_grammar_chain :
    let number := fun (digits : String) (column : Nat) =>
      (⟨.number digits, ⟨1, column⟩⟩ : Token)
    let operator := fun (op : Arithmetic) (column : Nat) =>
      (⟨.operator (.arithmetic op), ⟨1, column⟩⟩ : Token)
    let leaf := fun (digits : String) (column : Nat) => Node.leaf .number digits ⟨1, column⟩
    let inner := fun (op : Arithmetic) (column : Nat) (left right : Node) =>
      Node.inner (.binary (.arithmetic op)) ⟨1, column⟩ [left, right]
    let w := [number "1" 1, operator .sub 3, number "2" 5, operator .mul 7, number "3" 9,
      operator .sub 11, number "4" 13, ⟨.mark .semicolon, ⟨1, 14⟩⟩]
    EndFree w ∧ parseTokens w = .ok (.inner .program ⟨1, 1⟩ [.inner .statement ⟨1, 1⟩
      [inner .sub 11 (inner .sub 3 (leaf "1" 1) (inner .mul 7 (leaf "2" 5) (leaf "3" 9)))
        (leaf "4" 13)]]) := by
  intro number operator leaf inner w
  have hw : EndFree w := by decide
  refine ⟨hw, ((parses_exactly_grammar w hw).1 _).2 ?_⟩
  let first := ofPrimary (.number "1" ⟨1, 1⟩) .product
  let second : Derivation (.one (.level .product)) :=
    .level .product (.number "2" ⟨1, 5⟩)
      (.moreOperations .product rfl (.arithmetic .mul) rfl ⟨1, 7⟩ (.number "3" ⟨1, 9⟩)
        (.noOperation .product))
  let third := ofPrimary (.number "4" ⟨1, 13⟩) .product
  let sum : Derivation (.one (.level .sum)) :=
    .level .sum first
      (.moreOperations .sum rfl (.arithmetic .sub) rfl ⟨1, 3⟩ second
        (.moreOperations .sum rfl (.arithmetic .sub) rfl ⟨1, 11⟩ third (.noOperation .sum)))
  exact ⟨.program (.last _ (.statement (.evaluation
    (.logical (ofOperand .logical (ofOperand .relation sum))) ⟨1, 14⟩))), rfl, rfl⟩

/-! ## Faults -/

/-- The sequence is accepted. -/
def Accepted (w : List Token) : Prop :=
  ∃ node, parseTokens w = .ok node

/-- The fault is that the input ends, and the sequence is the beginning of a program. -/
def Incomplete (w : List Token) : Prop :=
  ∃ f, parseTokens w = .error f ∧ f.code = .prematureEnd ∧
    f.span = (Token.Stream.endAfter w.getLast?).span ∧ Viable w

/-- The fault is at a token up to which the sequence is the beginning of a program,
and with which it is not. -/
def Misplaced (w : List Token) : Prop :=
  ∃ f k t, parseTokens w = .error f ∧ f.code = .unexpectedToken ∧
    w[k]? = some t ∧ f.span = t.span ∧ Viable (w.take k) ∧ ¬ Viable (w.take (k + 1))

/-- Exactly one of three things holds: a token sequence is accepted, it only lacks
its end, or its first token that cannot stand where it does is blamed. The input is
said to end too early exactly if the sequence can be completed and is not complete. -/
theorem syntax_faults_exact (w : List Token) (hw : EndFree w) :
    ((Accepted w ∧ ¬ Incomplete w ∧ ¬ Misplaced w) ∨
      (¬ Accepted w ∧ Incomplete w ∧ ¬ Misplaced w) ∨
      (¬ Accepted w ∧ ¬ Incomplete w ∧ Misplaced w)) ∧
    ((∃ f, parseTokens w = .error f ∧ f.code = .prematureEnd) ↔ Viable w ∧ ¬ IsProgram w) := by
  cases verdict hw (ofTokens_of_endFree hw) with
  | accepted d run text only =>
      refine ⟨.inl ⟨⟨d.tree, run⟩, ?_, ?_⟩, ?_, ?_⟩
      · rintro ⟨f, hf, -⟩
        cases run.symm.trans hf
      · rintro ⟨f, k, t, hf, -⟩
        cases run.symm.trans hf
      · rintro ⟨f, hf, -⟩
        cases run.symm.trans hf
      · rintro ⟨-, hnot⟩
        exact absurd ⟨d, text⟩ hnot
  | misplaced f u v t run split span code viable stuck =>
      have hcode : ∀ f', parseTokens w = .error f' → f'.code ≠ .prematureEnd := by
        intro f' hf'
        cases run.symm.trans hf'
        simp [code]
      refine ⟨.inr (.inr ⟨?_, ?_, f, u.length, t, run, code, ?_, span, ?_, ?_⟩), ?_, ?_⟩
      · rintro ⟨node, hnode⟩
        cases run.symm.trans hnode
      · rintro ⟨f', hf', hcode', -⟩
        exact hcode f' hf' hcode'
      · simp [split]
      · simpa [split] using viable
      · rw [split, List.take_length_add_append]
        exact stuck
      · rintro ⟨f', hf', hcode'⟩
        exact absurd hcode' (hcode f' hf')
      · rintro ⟨⟨v', d, hd⟩, -⟩
        refine absurd ?_ stuck
        exact ⟨v ++ v', d, by simpa [split] using hd⟩
  | incomplete f run span code viable stuck =>
      refine ⟨.inr (.inl ⟨?_, ⟨f, run, code, span, viable⟩, ?_⟩), ?_, ?_⟩
      · rintro ⟨node, hnode⟩
        cases run.symm.trans hnode
      · rintro ⟨f', k, t, hf', hcode', -⟩
        cases run.symm.trans hf'
        cases code.symm.trans hcode'
      · intro _
        exact ⟨viable, stuck⟩
      · intro _
        exact ⟨f, run, code⟩

/-- In `a < b < c` the second operator is one too many. -/
theorem syntax_faults_exact_comparisons :
    let name := fun (spelling : String) (column : Nat) => (⟨.name spelling, ⟨1, column⟩⟩ : Token)
    let less := fun (column : Nat) => (⟨.operator (.comparison .less), ⟨1, column⟩⟩ : Token)
    let w := [name "a" 1, less 3, name "b" 5, less 7, name "c" 9]
    EndFree w ∧ Misplaced w ∧ ¬ Incomplete w := by
  intro name less w
  have hw : EndFree w := by decide
  have hrun : ∃ f, parseTokens w = .error f ∧ f.code = .unexpectedToken := ⟨_, rfl, rfl⟩
  obtain ⟨f, hf, hcode⟩ := hrun
  obtain ⟨⟨node, hnode⟩, -⟩ | ⟨-, ⟨f', hf', hcode', -⟩, -⟩ | ⟨-, hincomplete, hmisplaced⟩ :=
    (syntax_faults_exact w hw).1
  · cases hf.symm.trans hnode
  · cases hf.symm.trans hf'
    cases hcode.symm.trans hcode'
  · exact ⟨hw, hmisplaced, hincomplete⟩

end ScopeLang.Grammar
