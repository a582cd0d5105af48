-- SUMMARY: Tokens and lexical faults stand at the line and column of the byte that they are about.
import Mathlib.Data.List.Induction
import ScopeLang.Proofs.LexicalGrammar
import ScopeLang.Proofs.Uses

/-! # Positions

Scanning moves a span over a text byte by byte. `Span.ofOffset` says what the span
of an offset is without moving: how many line feeds come before it, and how many
bytes since the last of them.

The main statement is that every token stands at the offset of its first byte, and
every lexical fault at the offset of the byte that is to blame. `Blames` says which
byte that is.
-/

namespace ScopeLang

/-! ## Offsets -/

/-- The place of an offset in a text. -/
def Span.ofOffset (text : List UInt8) (offset : Nat) : Span where
  line := 1 + (text.take offset).count lineFeed
  column := 1 + ((text.take offset).reverse.takeWhile (· != lineFeed)).length

theorem Span.start_after_take (text : List UInt8) (offset : Nat) :
    start.after (text.take offset) = ofOffset text offset := by
  unfold ofOffset
  generalize text.take offset = before
  induction before using List.reverseRecOn with
  | nil => rfl
  | append_singleton before b ih =>
      rw [after_append, ih, after_cons, after_nil, step]
      split
      next hfeed => simp [hfeed, Nat.add_assoc]
      next hfeed => simp [hfeed, Nat.add_comm]

/-- The place after the first part of a text. -/
theorem Span.start_after_of_append {text before rest : List UInt8} (h : before ++ rest = text) :
    start.after before = ofOffset text before.length := by
  rw [← start_after_take, ← h, List.take_left]

namespace Lexical

open Text.Quoted (quote backslash)

/-! ## Offsets of lexemes -/

/-- The lexemes among some parts, with the offsets of their first bytes. The first part starts at
`offset`. -/
def located (offset : Nat) : List Part → List (Nat × Lexeme)
  | [] => []
  | part :: parts =>
    (part.lexeme?.map fun l => (offset, l)).toList ++ located (offset + part.bytes.length) parts

/-- The token of a lexeme that starts at an offset of a text. -/
def tokenAt (text : List UInt8) (l : Nat × Lexeme) : Token :=
  ⟨l.2, .ofOffset text l.1⟩

theorem tokensFrom_eq_located {text before rest : List UInt8} {parts : List Part}
    (h : before ++ (textOf parts ++ rest) = text) :
    tokensFrom (Span.start.after before) parts =
      (located before.length parts).map (tokenAt text) := by
  induction parts generalizing before with
  | nil => rfl
  | cons part parts ih =>
      have hfirst : Span.start.after before = .ofOffset text before.length :=
        Span.start_after_of_append h
      rw [textOf_cons, List.append_assoc, ← List.append_assoc] at h
      rw [tokensFrom, ← Span.after_append, ih h, located, List.map_append, List.length_append,
        hfirst]
      cases part.lexeme? <;> rfl

/-! ## Lexemes stand on one line -/

theorem lineFeed_notMem_of_written {raw content : List UInt8} (h : Written raw content) :
    Span.lineFeed ∉ raw := by
  induction h with
  | nil => exact List.not_mem_nil
  | plain hb _ ih => exact List.not_mem_cons_of_ne_of_not_mem (Ne.symm hb.1) ih
  | escaped hletter _ ih =>
      have hne : ∀ {letter c}, IsEscape letter c → Span.lineFeed ≠ letter := by
        intro letter c hletter
        cases hletter <;> decide
      apply List.not_mem_cons_of_ne_of_not_mem (by decide)
      exact List.not_mem_cons_of_ne_of_not_mem (hne hletter) ih

theorem lineFeed_notMem_of_mem_fixed {l : Lexeme} (h : l ∈ Lexeme.fixed) :
    Span.lineFeed ∉ Text.bytes l.render := by
  revert l
  decide

theorem lineFeed_notMem_of_isWordPart {bs : List UInt8} (h : ∀ b ∈ bs, Byte.isWordPart b = true) :
    Span.lineFeed ∉ bs := by
  intro hmem
  exact absurd (h _ hmem) (by decide)

/-- No lexeme goes over the end of a line. -/
theorem Spells.lineFeed_notMem {bs : List UInt8} {l : Lexeme} (h : Spells bs l) :
    Span.lineFeed ∉ bs := by
  cases h with
  | operator op => exact lineFeed_notMem_of_mem_fixed (operator_mem_fixed op)
  | mark m => exact lineFeed_notMem_of_mem_fixed (mark_mem_fixed m)
  | number h =>
      obtain ⟨b, bs, hbytes, hdigits, -⟩ := Text.exists_bytes_of_isDigits h
      rw [hbytes]
      exact lineFeed_notMem_of_isWordPart fun x hx => isWordPart_of_isDigit (hdigits x hx)
  | word h =>
      obtain ⟨b, bs, hbytes, hb, hparts, -⟩ := Text.exists_bytes_of_isWord h
      rw [hbytes]
      exact lineFeed_notMem_of_isWordPart
        (List.forall_mem_cons.2 ⟨isWordPart_of_isWordStart hb, hparts⟩)
  | text h =>
      have hquote : Span.lineFeed ≠ quote := by decide
      apply List.not_mem_cons_of_ne_of_not_mem hquote
      intro hmem
      obtain hraw | hend := List.mem_append.1 hmem
      · exact lineFeed_notMem_of_written h hraw
      · exact hquote (List.mem_singleton.1 hend)

/-! ## Faults -/

/-- The byte that a cause blames, `offset` bytes into what is left of a text. -/
inductive Blames : List UInt8 → Cause → Nat → Prop
  | unexpected (b : UInt8) (rest : List UInt8) : Blames (b :: rest) (.unexpectedByte b) 0
  /-- The first byte of an operator without its second one. -/
  | bare {op : Operator} {b : UInt8} {rest : List UInt8}
      (starts : (Text.bytes op.spelling).head? = some b)
      (alone : ¬ Text.bytes op.spelling <+: b :: rest) : Blames (b :: rest) (.bareOperator op) 0
  /-- The quote that opens a literal which the line or the text ends before it is closed. -/
  | unterminated {raw content rest : List UInt8} (h : Written raw content)
      (ends : rest = [] ∨ rest = [backslash] ∨ rest.head? = some Span.lineFeed) :
      Blames (quote :: (raw ++ rest)) .unterminatedString 0
  /-- The byte after a backslash in a literal. -/
  | unknownEscape {raw content rest : List UInt8} {letter : UInt8} (h : Written raw content)
      (unknown : ∀ c, ¬ IsEscape letter c) :
      Blames (quote :: (raw ++ backslash :: letter :: rest)) (.unknownEscape letter)
        (raw.length + 2)

section Blames

variable {b : UInt8} {rest : List UInt8} {cause : Cause} {offset : Nat}

theorem blames_of_ofLiteral (h : Piece.ofLiteral rest = .fault cause offset) :
    Blames (quote :: rest) cause offset := by
  have hreads := reads_scanBody rest
  unfold Piece.ofLiteral at h
  split at h
  next => cases h
  next hbody =>
    cases h
    rw [hbody] at hreads
    cases hreads with
    | unterminated hwritten ends => exact .unterminated hwritten ends
  next letter offset hbody =>
    cases h
    rw [hbody] at hreads
    cases hreads with
    | unknownEscape hwritten unknown => exact .unknownEscape hwritten unknown

theorem blames_of_first (h : Piece.first b rest = .fault cause offset) :
    Blames (b :: rest) cause offset := by
  unfold Piece.first at h
  split at h
  · cases h
  split at h
  · cases h
  split at h
  next hquote =>
    subst hquote
    exact blames_of_ofLiteral h
  split at h
  · cases h
  split at h
  · cases h
  split at h
  · cases h
  next hfixed =>
    split at h
    next op hstarts =>
      cases h
      apply Blames.bare
      · simpa using List.find?_some hstarts
      · intro halone
        obtain ⟨l', hfound, -⟩ := fixedAt?_of_isPrefix (operator_mem_fixed op) halone
        rw [hfixed] at hfound
        cases hfound
    next =>
      cases h
      exact .unexpected b rest

end Blames

/-! ## Places of tokens and faults -/

/-- A token stands where its first byte does, and the end of input where the text ends. Tokens
stand one after another, each of them on one line. A fault stands where the byte does that it
blames. -/
theorem tokenize_positions (source : String) :
    (∀ tokens, tokenize source = .ok tokens →
      (∃ parts, Splits parts [] ∧ textOf parts = Text.bytes source ∧
        tokens = (located 0 parts).map (tokenAt (Text.bytes source)) ++
          [⟨.endOfInput, .ofOffset (Text.bytes source) (Text.bytes source).length⟩] ∧
        ∀ part ∈ parts, part.lexeme?.isSome → Span.lineFeed ∉ part.bytes) ∧
      (tokens.map Token.span).Pairwise Span.Before) ∧
    (∀ fault, tokenize source = .error fault →
      ∃ parts rest offset, Splits parts rest ∧ textOf parts ++ rest = Text.bytes source ∧
        Stuck rest ∧ Blames rest fault.cause offset ∧
        fault.span = .ofOffset (Text.bytes source) ((textOf parts).length + offset)) := by
  constructor
  · intro tokens htokenize
    refine ⟨?_, (pairwise_before_of_scan htokenize).1⟩
    obtain ⟨parts, hsplits, htext, rfl⟩ := exists_splits_of_ok htokenize
    refine ⟨parts, hsplits, htext, ?_, ?_⟩
    · have hparts : [] ++ (textOf parts ++ []) = Text.bytes source := by simpa using htext
      have hlocated := tokensFrom_eq_located hparts
      have hend := Span.start_after_of_append (List.append_nil (Text.bytes source))
      exact congrArg₂ (fun ts span => ts ++ [⟨.endOfInput, span⟩]) hlocated hend
    · intro part hpart hlexeme
      obtain ⟨l, hl⟩ := Option.isSome_iff_exists.1 hlexeme
      exact (hsplits.spells hpart hl).lineFeed_notMem
  · intro f htokenize
    obtain ⟨parts, b, rest, cause, offset, hsplits, htext, hfault, rfl⟩ :=
      exists_splits_of_error htokenize
    refine ⟨parts, b :: rest, offset, hsplits, htext, stuck_of_fault htext.symm hfault,
      blames_of_first hfault, ?_⟩
    rw [← Span.start_after_take, ← htext, List.take_length_add_append]

end Lexical

end ScopeLang
