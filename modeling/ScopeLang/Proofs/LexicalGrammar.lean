-- SUMMARY: The lexical grammar, and that scanning cuts a text into its gaps and longest lexemes.
import ScopeLang.Proofs.Scanning

/-! # The lexical grammar

`Spells` says which bytes are which lexeme, and `Stands` which parts of a text may
stand before what follows them: a blank, a comment up to the end of its line, or a
lexeme than which none that starts there is longer. Two slashes always start a
comment. `Splits` puts such parts one after another.

The main statement is that scanning succeeds on the texts that split into parts,
and yields their lexemes. A text on which it fails splits up to a place at which no
part can stand.
-/

namespace ScopeLang.Lexical

open Text.Quoted (quote backslash IsPlain)

/-! ## Lexemes -/

/-- The letter after a backslash, and the byte that the two stand for. -/
inductive IsEscape : UInt8 → UInt8 → Prop
  /-- `\n` -/
  | lineFeed : IsEscape 110 10
  /-- `\t` -/
  | tab : IsEscape 116 9
  /-- `\"` -/
  | quote : IsEscape 34 34
  /-- `\\` -/
  | backslash : IsEscape 92 92

/-- What stands between the quotes of a literal, and what it stands for. -/
inductive Written : List UInt8 → List UInt8 → Prop
  | nil : Written [] []
  | plain {b : UInt8} {raw content : List UInt8} (hb : IsPlain b) (hraw : Written raw content) :
      Written (b :: raw) (b :: content)
  | escaped {letter c : UInt8} {raw content : List UInt8} (hletter : IsEscape letter c)
      (hraw : Written raw content) : Written (backslash :: letter :: raw) (c :: content)

/-- The bytes are the lexeme. -/
inductive Spells : List UInt8 → Lexeme → Prop
  | operator (op : Operator) : Spells (Text.bytes op.spelling) (.operator op)
  | mark (m : Mark) : Spells (Text.bytes m.spelling) (.mark m)
  | number {digits : String} (h : Text.isDigits digits = true) :
      Spells (Text.bytes digits) (.number digits)
  | word {w : String} (h : Text.isWord w = true) : Spells (Text.bytes w) (.ofWord w)
  | text {raw : List UInt8} {content : String} (h : Written raw (Text.bytes content)) :
      Spells (quote :: raw ++ [quote]) (.text content)

/-! ## Parts of a text -/

/-- A part of a text: some bytes, and the lexeme that they are unless they are a gap. -/
structure Part where
  bytes : List UInt8
  lexeme? : Option Lexeme

/-- The part may stand before what is left of a text. -/
inductive Stands : Part → List UInt8 → Prop
  | blank {b : UInt8} {rest : List UInt8} (h : b = 32 ∨ b = 9 ∨ b = 13 ∨ b = 10) :
      Stands ⟨[b], none⟩ rest
  /-- A comment goes on to the end of its line. -/
  | comment {body rest : List UInt8} (inside : Span.lineFeed ∉ body)
      (ends : rest = [] ∨ rest.head? = some Span.lineFeed) :
      Stands ⟨Byte.slash :: Byte.slash :: body, none⟩ rest
  /-- A lexeme is the longest one that starts where it does, and does not start a comment. -/
  | lexeme {bs rest : List UInt8} {l : Lexeme} (spells : Spells bs l)
      (noComment : ¬ [Byte.slash, Byte.slash] <+: bs ++ rest)
      (longest : ∀ bs' l', Spells bs' l' → bs' <+: bs ++ rest → bs'.length ≤ bs.length) :
      Stands ⟨bs, some l⟩ rest

/-- The bytes of some parts. -/
def textOf (parts : List Part) : List UInt8 :=
  parts.flatMap Part.bytes

@[simp] theorem textOf_nil : textOf [] = [] := rfl

@[simp] theorem textOf_cons (part : Part) (parts : List Part) :
    textOf (part :: parts) = part.bytes ++ textOf parts := rfl

/-- The lexemes among some parts. -/
def lexemesOf (parts : List Part) : List Lexeme :=
  parts.filterMap Part.lexeme?

/-- The parts may stand one after another before what is left of a text. -/
inductive Splits : List Part → List UInt8 → Prop
  | nil (rest : List UInt8) : Splits [] rest
  | cons {part : Part} {parts : List Part} {rest : List UInt8}
      (first : Stands part (textOf parts ++ rest)) (others : Splits parts rest) :
      Splits (part :: parts) rest

/-! ## Bodies of literals -/

theorem meaning?_eq_some_iff {letter c : UInt8} :
    Text.Quoted.meaning? letter = some c ↔ IsEscape letter c := by
  constructor
  · intro h
    have hletter := (Text.toUInt8_ofUInt8 letter).symm
    unfold Text.Quoted.meaning? at h
    split at h
    next hn =>
      cases h
      rw [hletter, hn]
      exact .lineFeed
    next ht =>
      cases h
      rw [hletter, ht]
      exact .tab
    next hquote =>
      cases h
      rw [hletter, hquote]
      exact .quote
    next hbackslash =>
      cases h
      rw [hletter, hbackslash]
      exact .backslash
    next => cases h
  · intro h
    cases h <;> rfl

/-- What the bytes after an opening quote turn out to be: they begin with something that can
stand in a literal, and then the literal is closed, or it cannot be. -/
inductive Reads : List UInt8 → Text.Quoted.Body → Prop
  | closed {raw content rest : List UInt8} (h : Written raw content) :
      Reads (raw ++ quote :: rest) (.closed content (raw.length + 1))
  | unterminated {raw content rest : List UInt8} (h : Written raw content)
      (ends : rest = [] ∨ rest = [backslash] ∨ rest.head? = some Span.lineFeed) :
      Reads (raw ++ rest) .unterminated
  | unknownEscape {raw content rest : List UInt8} {letter : UInt8} (h : Written raw content)
      (unknown : ∀ c, ¬ IsEscape letter c) :
      Reads (raw ++ backslash :: letter :: rest) (.unknownEscape letter (raw.length + 1))

namespace Reads

variable {bs : List UInt8} {body : Text.Quoted.Body}

theorem plain {b : UInt8} (h : Reads bs body) (hb : IsPlain b) :
    Reads (b :: bs) (body.prepend b 1) := by
  cases h with
  | closed h => exact .closed (.plain hb h)
  | unterminated h ends => exact .unterminated (.plain hb h) ends
  | unknownEscape h unknown => exact .unknownEscape (.plain hb h) unknown

theorem escaped {letter c : UInt8} (h : Reads bs body) (hletter : IsEscape letter c) :
    Reads (backslash :: letter :: bs) (body.prepend c 2) := by
  cases h with
  | closed h => exact .closed (.escaped hletter h)
  | unterminated h ends => exact .unterminated (.escaped hletter h) ends
  | unknownEscape h unknown => exact .unknownEscape (.escaped hletter h) unknown

end Reads

theorem reads_scanBody (bs : List UInt8) : Reads bs (Text.Quoted.scanBody bs) := by
  fun_induction Text.Quoted.scanBody bs with
  | case1 => exact .unterminated .nil (.inl rfl)
  | case2 rest => exact .unterminated .nil (.inr (.inr rfl))
  | case3 rest => exact .closed .nil
  | case4 => exact .unterminated .nil (.inr (.inl rfl))
  | case5 letter rest c hletter _ _ ih => exact ih.escaped (meaning?_eq_some_iff.1 hletter)
  | case6 letter rest hletter =>
      apply Reads.unknownEscape .nil
      intro c hc
      rw [meaning?_eq_some_iff.2 hc] at hletter
      cases hletter
  | case7 b rest hfeed hquote hslash ih => exact ih.plain ⟨hfeed, hquote, hslash⟩

/-- A literal that can be closed is closed at the first chance. -/
theorem scanBody_of_written {raw content : List UInt8} (h : Written raw content)
    (rest : List UInt8) :
    Text.Quoted.scanBody (raw ++ quote :: rest) = .closed content (raw.length + 1) := by
  induction h with
  | nil => exact Text.Quoted.scanBody_quote rest
  | plain hb _ ih =>
      rw [List.cons_append, Text.Quoted.scanBody_cons hb, ih]
      rfl
  | escaped hletter _ ih =>
      rw [List.cons_append, List.cons_append,
        Text.Quoted.scanBody_escape_cons (meaning?_eq_some_iff.2 hletter), ih]
      rfl

/-- What a part of a text stands for in a literal is a text. -/
theorem exists_text_of_written {raw content : List UInt8} (h : Written raw content)
    {before : List UInt8} {s : String} (hs : Text.bytes s = before ++ raw) :
    ∃ t, Text.bytes t = before ++ content := by
  induction h generalizing before s with
  | nil => exact ⟨s, hs⟩
  | plain _ _ ih =>
      rw [List.append_cons] at hs ⊢
      exact ih hs
  | @escaped letter c raw content hletter _ ih =>
      -- The text is cut before the backslash and after the letter.
      have hascii : letter.toNat < 128 ∧ c.toNat < 128 := by cases hletter <;> decide
      obtain ⟨first, rest, rfl, hrest⟩ := Text.exists_cut (by decide) hs
      rw [← List.nil_append (letter :: raw)] at hrest
      obtain ⟨_, after, -, hafter⟩ := Text.exists_cut hascii.1 hrest
      rw [← List.nil_append raw] at hafter
      obtain ⟨t, ht⟩ := ih hafter
      refine ⟨first ++ (Text.ofCodes [c] ++ t), ?_⟩
      rw [Text.bytes_append, Text.bytes_append, ht, Text.bytes_ofCodes (by simpa using hascii.2)]
      rfl

/-! ## Fixed lexemes -/

theorem Spells.of_mem_fixed {l : Lexeme} (h : l ∈ Lexeme.fixed) :
    Spells (Text.bytes l.render) l := by
  have hkind : (∃ op, l = .operator op) ∨ ∃ m, l = .mark m := by
    revert h
    revert l
    simp [Lexeme.fixed]
  obtain ⟨op, rfl⟩ | ⟨m, rfl⟩ := hkind
  · exact .operator op
  · exact .mark m

theorem operator_mem_fixed (op : Operator) : .operator op ∈ Lexeme.fixed := by
  rcases op with op | op | op <;> cases op <;> decide

theorem mark_mem_fixed (m : Mark) : .mark m ∈ Lexeme.fixed := by
  cases m <;> decide

/-- Of two fixed lexemes, the one that comes first is not shorter, and is another text. -/
theorem pairwise_fixed : Lexeme.fixed.Pairwise fun l l' =>
    (Text.bytes l'.render).length ≤ (Text.bytes l.render).length ∧
      Text.bytes l.render ≠ Text.bytes l'.render := by
  decide

/-- The byte starts neither a gap nor a literal, a number or a word. -/
def IsPunctuation (b : UInt8) : Prop :=
  Byte.isBlank b = false ∧ b ≠ quote ∧ Byte.isDigit b = false ∧ Byte.isWordStart b = false

instance (b : UInt8) : Decidable (IsPunctuation b) :=
  inferInstanceAs (Decidable (_ ∧ _))

theorem exists_bytes_of_mem_fixed {l : Lexeme} (h : l ∈ Lexeme.fixed) :
    ∃ b bs, Text.bytes l.render = b :: bs ∧ IsPunctuation b := by
  have hall : ∀ l ∈ Lexeme.fixed, ∃ b ∈ (Text.bytes l.render).head?, IsPunctuation b := by decide
  obtain ⟨b, hb, hpunctuation⟩ := hall l h
  obtain ⟨bs, hbytes⟩ := List.head?_eq_some_iff.1 hb
  exact ⟨b, bs, hbytes, hpunctuation⟩

/-- A fixed lexeme is found where one stands, and it is the longest one there. -/
theorem fixedAt?_of_isPrefix {l : Lexeme} {bs : List UInt8} (hl : l ∈ Lexeme.fixed)
    (h : Text.bytes l.render <+: bs) :
    ∃ l', Lexeme.fixedAt? bs = some l' ∧
      (Text.bytes l.render).length ≤ (Text.bytes l'.render).length ∧
      ((Text.bytes l'.render).length ≤ (Text.bytes l.render).length → l' = l) := by
  cases hfind : Lexeme.fixedAt? bs with
  | none =>
      have hnone := List.find?_eq_none.1 hfind l hl
      exact absurd (List.isPrefixOf_iff_prefix.2 h) hnone
  | some l' =>
      refine ⟨l', rfl, ?_⟩
      obtain ⟨hl', before, after, hfixed, hbefore⟩ := List.find?_eq_some_iff_append.1 hfind
      have hpairwise := pairwise_fixed
      rw [hfixed, List.pairwise_append, List.pairwise_cons] at hpairwise
      rw [hfixed, List.mem_append, List.mem_cons] at hl
      obtain hl | rfl | hl := hl
      · have hno := hbefore l hl
        rw [List.isPrefixOf_iff_prefix.2 h] at hno
        cases hno
      · exact ⟨Nat.le_refl _, fun _ => rfl⟩
      · obtain ⟨hle, hne⟩ := hpairwise.2.1.1 l hl
        refine ⟨hle, fun hge => absurd ?_ hne⟩
        have hfront := List.prefix_of_prefix_length_le (List.isPrefixOf_iff_prefix.1 hl') h hge
        exact hfront.eq_of_length_le hle

/-! ## Lexemes at the front of a text -/

theorem startsComment_iff {b : UInt8} {rest : List UInt8} :
    [Byte.slash, Byte.slash] <+: b :: rest ↔ b = Byte.slash ∧ rest.head? = some Byte.slash := by
  rw [List.cons_prefix_cons, List.head?_eq_some_iff]
  constructor
  · rintro ⟨hb, more, hmore⟩
    exact ⟨hb.symm, more, hmore.symm⟩
  · rintro ⟨hb, more, hmore⟩
    exact ⟨hb.symm, more, hmore.symm⟩

section First

variable {b : UInt8} {bs rest : List UInt8} {l : Lexeme}

/-- What stands at the front, unless it is a gap, a literal, a number or a word. -/
theorem first_of_isPunctuation (h : IsPunctuation b)
    (hcomment : ¬ [Byte.slash, Byte.slash] <+: b :: rest) :
    Piece.first b rest =
      match Lexeme.fixedAt? (b :: rest) with
      | some l => .lexeme l ((Text.bytes l.render).length - 1)
      | none =>
        match Operator.startedBy? b with
        | some op => .fault (.bareOperator op) 0
        | none => .fault (.unexpectedByte b) 0 := by
  obtain ⟨hblank, hquote, hdigit, hword⟩ := h
  rw [startsComment_iff] at hcomment
  rw [← Bool.not_eq_true] at hblank hdigit hword
  calc Piece.first b rest
    _ = _ := if_neg hblank
    _ = _ := if_neg hcomment
    _ = _ := if_neg hquote
    _ = _ := if_neg hdigit
    _ = _ := if_neg hword

/-- Where a lexeme stands, one is found that is not shorter; and this is the same one unless it
is longer. -/
def Found (b : UInt8) (bs rest : List UInt8) (l : Lexeme) : Prop :=
  ∃ l' more, Piece.first b (bs ++ rest) = .lexeme l' (bs.length + more) ∧ (more = 0 → l' = l)

theorem found_fixed (hl : l ∈ Lexeme.fixed) (hbytes : Text.bytes l.render = b :: bs)
    (hcomment : ¬ [Byte.slash, Byte.slash] <+: b :: (bs ++ rest)) : Found b bs rest l := by
  obtain ⟨b', bs', hbytes', hpunctuation⟩ := exists_bytes_of_mem_fixed hl
  obtain ⟨rfl, rfl⟩ := List.cons.inj (hbytes.symm.trans hbytes')
  have hfront : Text.bytes l.render <+: b :: (bs ++ rest) := ⟨rest, by rw [hbytes]; rfl⟩
  obtain ⟨l', hfixed, hle, hsame⟩ := fixedAt?_of_isPrefix hl hfront
  rw [hbytes, List.length_cons] at hle hsame
  refine ⟨l', (Text.bytes l'.render).length - 1 - bs.length, ?_, fun hmore => hsame (by omega)⟩
  rw [first_of_isPunctuation hpunctuation hcomment, hfixed]
  dsimp only
  rw [Nat.add_sub_cancel' (by omega)]

theorem found_number {digits : String} (h : Text.isDigits digits = true)
    (hbytes : Text.bytes digits = b :: bs) : Found b bs rest (.number digits) := by
  obtain ⟨b', bs', hbytes', hdigits, hspell⟩ := Text.exists_bytes_of_isDigits h
  obtain ⟨rfl, rfl⟩ := List.cons.inj (hbytes.symm.trans hbytes')
  have hb := hdigits b List.mem_cons_self
  have hpart : Byte.isWordPart b = true := by simp [Byte.isWordPart, hb]
  obtain ⟨hblank, hslash, hquote⟩ := ordinary_of_isWordPart hpart
  have htake : (bs ++ rest).takeWhile Byte.isDigit = bs ++ rest.takeWhile Byte.isDigit :=
    List.takeWhile_append_of_pos fun x hx => hdigits x (List.mem_cons_of_mem b hx)
  refine ⟨.number (Text.ofCodes (b :: (bs ++ rest.takeWhile Byte.isDigit))),
    (rest.takeWhile Byte.isDigit).length, ?_, fun hmore => ?_⟩
  · simp [Piece.first, hblank, hslash, hquote, hb, htake]
  · rw [List.length_eq_zero_iff.1 hmore, List.append_nil, hspell]

theorem found_word {w : String} (h : Text.isWord w = true) (hbytes : Text.bytes w = b :: bs) :
    Found b bs rest (.ofWord w) := by
  obtain ⟨b', bs', hbytes', hb, hparts, hspell⟩ := Text.exists_bytes_of_isWord h
  obtain ⟨rfl, rfl⟩ := List.cons.inj (hbytes.symm.trans hbytes')
  have hpart : Byte.isWordPart b = true := by simp [Byte.isWordPart, hb]
  obtain ⟨hblank, hslash, hquote⟩ := ordinary_of_isWordPart hpart
  have hdigit := isDigit_of_isWordStart hb
  have htake : (bs ++ rest).takeWhile Byte.isWordPart = bs ++ rest.takeWhile Byte.isWordPart :=
    List.takeWhile_append_of_pos hparts
  refine ⟨.ofWord (Text.ofCodes (b :: (bs ++ rest.takeWhile Byte.isWordPart))),
    (rest.takeWhile Byte.isWordPart).length, ?_, fun hmore => ?_⟩
  · simp [Piece.first, hblank, hslash, hquote, hdigit, hb, htake]
  · rw [List.length_eq_zero_iff.1 hmore, List.append_nil, hspell]

theorem first_quote (rest : List UInt8) : Piece.first quote rest = Piece.ofLiteral rest := by
  simp [Piece.first, quote, Byte.isBlank, Byte.slash]

theorem found_text {raw : List UInt8} {content : String}
    (h : Written raw (Text.bytes content)) (rest : List UInt8) :
    Found quote (raw ++ [quote]) rest (.text content) := by
  refine ⟨.text content, 0, ?_, fun _ => rfl⟩
  rw [first_quote, List.append_assoc, List.singleton_append, Piece.ofLiteral,
    scanBody_of_written h]
  simp

theorem found_of_spells (h : Spells (b :: bs) l)
    (hcomment : ¬ [Byte.slash, Byte.slash] <+: b :: (bs ++ rest)) : Found b bs rest l := by
  generalize hbytes : b :: bs = bytes at h
  cases h with
  | operator op => exact found_fixed (operator_mem_fixed op) hbytes.symm hcomment
  | mark m => exact found_fixed (mark_mem_fixed m) hbytes.symm hcomment
  | number h => exact found_number h hbytes.symm
  | word h => exact found_word h hbytes.symm
  | text h =>
      obtain ⟨rfl, rfl⟩ := List.cons.inj hbytes
      exact found_text h rest

/-- What follows a byte begins with `more` bytes that make it the lexeme. -/
def Begins (b : UInt8) (rest : List UInt8) (l : Lexeme) (more : Nat) : Prop :=
  ∃ bs after, rest = bs ++ after ∧ bs.length = more ∧ Spells (b :: bs) l

/-- A literal that is found in a text has a text as its content. -/
theorem begins_ofLiteral {s : String} {before : List UInt8}
    (hs : Text.bytes s = before ++ quote :: rest) {more : Nat}
    (h : Piece.ofLiteral rest = .lexeme l more) : Begins quote rest l more := by
  have hreads := reads_scanBody rest
  unfold Piece.ofLiteral at h
  split at h
  next content width hbody =>
    rw [hbody] at hreads
    cases h
    cases hreads with
    | @closed raw _ after hwritten =>
        -- Both quotes are ASCII, so what stands between them is a text.
        obtain ⟨_, inside, -, hinside⟩ := Text.exists_cut (by decide) hs
        obtain ⟨t, _, ht, -⟩ := Text.exists_cut (by decide) hinside
        rw [← List.nil_append raw] at ht
        obtain ⟨content, rfl⟩ := exists_text_of_written hwritten ht
        refine ⟨raw ++ [quote], after, by simp, by simp, ?_⟩
        have hcontent : (Text.ofBytes? (Text.bytes content)).getD "" = content := by simp
        exact hcontent.symm ▸ .text hwritten
  next => cases h
  next => cases h

theorem ascii_of_isWordPart (h : Byte.isWordPart b = true) : b.toNat < 128 := by
  rw [← Text.continuesWord_ofUInt8] at h
  exact Text.ascii_of_continuesWord h

theorem isWordPart_of_isDigit (h : Byte.isDigit b = true) : Byte.isWordPart b = true := by
  rw [Byte.isWordPart, h, Bool.or_true]

theorem isWordPart_of_isWordStart (h : Byte.isWordStart b = true) : Byte.isWordPart b = true := by
  rw [Byte.isWordPart, h, Bool.true_or]

theorem begins_number (h : Byte.isDigit b = true) :
    Begins b rest (.number (Text.ofCodes (b :: rest.takeWhile Byte.isDigit)))
      (rest.takeWhile Byte.isDigit).length := by
  have hdigits : ∀ x ∈ b :: rest.takeWhile Byte.isDigit, Byte.isDigit x = true :=
    List.forall_mem_cons.2 ⟨h, fun x hx => List.mem_takeWhile_imp hx⟩
  refine ⟨_, _, List.takeWhile_append_dropWhile.symm, rfl, ?_⟩
  have hspells := Spells.number (Text.isDigits_ofCodes hdigits)
  rw [Text.bytes_ofCodes fun x hx => ascii_of_isWordPart (isWordPart_of_isDigit (hdigits x hx))]
    at hspells
  exact hspells

theorem begins_word (h : Byte.isWordStart b = true) :
    Begins b rest (.ofWord (Text.ofCodes (b :: rest.takeWhile Byte.isWordPart)))
      (rest.takeWhile Byte.isWordPart).length := by
  have hparts : ∀ x ∈ rest.takeWhile Byte.isWordPart, Byte.isWordPart x = true :=
    fun x hx => List.mem_takeWhile_imp hx
  have hascii : ∀ x ∈ b :: rest.takeWhile Byte.isWordPart, x.toNat < 128 :=
    List.forall_mem_cons.2 ⟨ascii_of_isWordPart (isWordPart_of_isWordStart h),
      fun x hx => ascii_of_isWordPart (hparts x hx)⟩
  refine ⟨_, _, List.takeWhile_append_dropWhile.symm, rfl, ?_⟩
  have hspells := Spells.word (Text.isWord_ofCodes h hparts)
  rw [Text.bytes_ofCodes hascii] at hspells
  exact hspells

theorem begins_fixed (h : Lexeme.fixedAt? (b :: rest) = some l) :
    Begins b rest l ((Text.bytes l.render).length - 1) := by
  have hl := List.mem_of_find?_eq_some h
  obtain ⟨after, hafter⟩ := List.isPrefixOf_iff_prefix.1 (List.find?_eq_some_iff_append.1 h).1
  obtain ⟨b', bs, hbytes, -⟩ := exists_bytes_of_mem_fixed hl
  have hspells := Spells.of_mem_fixed hl
  rw [hbytes] at hafter hspells ⊢
  obtain ⟨rfl, rfl⟩ := List.cons.inj hafter
  exact ⟨bs, after, rfl, rfl, hspells⟩

/-- A lexeme that is found in a text is one of the grammar. -/
theorem begins_of_first {s : String} {before : List UInt8}
    (hs : Text.bytes s = before ++ b :: rest) {more : Nat}
    (h : Piece.first b rest = .lexeme l more) : Begins b rest l more := by
  unfold Piece.first at h
  split at h
  · cases h
  split at h
  · cases h
  split at h
  next hquote =>
    subst hquote
    exact begins_ofLiteral hs h
  split at h
  next hdigit =>
    cases h
    exact begins_number hdigit
  split at h
  next hword =>
    cases h
    exact begins_word hword
  split at h
  next hfixed =>
    cases h
    exact begins_fixed hfixed
  split at h <;> cases h

end First

/-! ## Parts at the front of a text -/

/-- The piece that a part is, which has so many bytes after its first one. -/
def pieceOf : Option Lexeme → Nat → Piece
  | none, more => .gap more
  | some l, more => .lexeme l more

section Parts

variable {b : UInt8} {rest : List UInt8} {part : Part} {s : String} {before : List UInt8}

theorem Spells.exists_cons {bs : List UInt8} {l : Lexeme} (h : Spells bs l) :
    ∃ b bs', bs = b :: bs' := by
  cases h with
  | operator op =>
      obtain ⟨b, bs, hbytes, -⟩ := exists_bytes_of_mem_fixed (operator_mem_fixed op)
      exact ⟨b, bs, hbytes⟩
  | mark m =>
      obtain ⟨b, bs, hbytes, -⟩ := exists_bytes_of_mem_fixed (mark_mem_fixed m)
      exact ⟨b, bs, hbytes⟩
  | number h =>
      obtain ⟨b, bs, hbytes, -⟩ := Text.exists_bytes_of_isDigits h
      exact ⟨b, bs, hbytes⟩
  | word h =>
      obtain ⟨b, bs, hbytes, -⟩ := Text.exists_bytes_of_isWord h
      exact ⟨b, bs, hbytes⟩
  | text => exact ⟨_, _, rfl⟩

/-- Two slashes start a gap. -/
theorem first_comment (h : [Byte.slash, Byte.slash] <+: b :: rest) :
    Piece.first b rest = .gap (rest.takeWhile (· != Span.lineFeed)).length := by
  rw [startsComment_iff] at h
  obtain ⟨rfl, hrest⟩ := h
  simp [Piece.first, hrest, Byte.isBlank, Byte.slash]

theorem isBlank_iff : Byte.isBlank b = true ↔ b = 32 ∨ b = 9 ∨ b = 13 ∨ b = 10 := by
  simp [Byte.isBlank, or_assoc]

/-- Where some lexeme stands and no comment does, a lexeme is found that is not shorter. -/
theorem exists_first_of_spells (hcomment : ¬ [Byte.slash, Byte.slash] <+: b :: rest)
    {bs : List UInt8} {l : Lexeme} (h : Spells bs l) (hfront : bs <+: b :: rest) :
    ∃ l' more, Piece.first b rest = .lexeme l' (bs.length - 1 + more) := by
  obtain ⟨b', bs, rfl⟩ := h.exists_cons
  obtain ⟨after, hafter⟩ := hfront
  obtain ⟨rfl, rfl⟩ := List.cons.inj hafter
  obtain ⟨l', more, hfirst, -⟩ := found_of_spells h hcomment
  exact ⟨l', more, hfirst⟩

/-- The part that stands at the front of a text is found there. -/
theorem first_of_stands (hs : Text.bytes s = before ++ (part.bytes ++ rest))
    (h : Stands part rest) : ∃ b bs, part.bytes = b :: bs ∧
    Piece.first b (bs ++ rest) = pieceOf part.lexeme? bs.length := by
  cases h with
  | @blank b _ hb =>
      refine ⟨b, [], rfl, ?_⟩
      rw [Piece.first, if_pos (isBlank_iff.2 hb)]
      rfl
  | @comment body _ inside ends =>
      refine ⟨Byte.slash, Byte.slash :: body, rfl, ?_⟩
      have hline : ∀ x ∈ Byte.slash :: body, (x != Span.lineFeed) = true := by
        intro x hx
        rw [bne_iff_ne]
        rintro rfl
        obtain heq | hbody := List.mem_cons.1 hx
        · exact absurd heq (by decide)
        · exact inside hbody
      have hend : ∀ x ∈ rest.head?, (x != Span.lineFeed) = false := by
        intro x hx
        obtain rfl | hfeed := ends
        · cases hx
        · rw [Option.mem_def, hfeed, Option.some.injEq] at hx
          simp [hx]
      rw [first_comment (by simp), Scans.takeWhile_append hline hend]
      rfl
  | @lexeme bs _ l spells noComment longest =>
      obtain ⟨b, bs, rfl⟩ := spells.exists_cons
      refine ⟨b, bs, rfl, ?_⟩
      obtain ⟨l', more, hfirst, hsame⟩ := found_of_spells spells noComment
      -- What is found is a lexeme too, so it is no longer than the longest one.
      obtain ⟨bs', after, hrest, hlength, hspells⟩ := begins_of_first hs hfirst
      have hle := longest (b :: bs') l' hspells ⟨after, by rw [List.cons_append, ← hrest]; rfl⟩
      obtain rfl : more = 0 := by
        rw [List.length_cons, List.length_cons] at hle
        omega
      rw [hfirst, hsame rfl]
      rfl

theorem stands_of_gap {more : Nat} (h : Piece.first b rest = .gap more) :
    ∃ bs after, rest = bs ++ after ∧ bs.length = more ∧ Stands ⟨b :: bs, none⟩ after := by
  by_cases hcomment : [Byte.slash, Byte.slash] <+: b :: rest
  · rw [first_comment hcomment] at h
    cases h
    obtain ⟨rfl, hslash⟩ := startsComment_iff.1 hcomment
    obtain ⟨rest, rfl⟩ := List.head?_eq_some_iff.1 hslash
    refine ⟨_, _, List.takeWhile_append_dropWhile.symm, rfl, ?_⟩
    rw [List.takeWhile_cons_of_pos (by decide), List.dropWhile_cons_of_pos (by decide)]
    apply Stands.comment
    · intro hmem
      exact absurd (List.mem_takeWhile_imp hmem) (by decide)
    · cases hdrop : rest.dropWhile (· != Span.lineFeed) with
      | nil => exact .inl rfl
      | cons x after =>
          have hx := List.head?_dropWhile_not (p := (· != Span.lineFeed)) rest
          rw [hdrop] at hx
          exact .inr (by simpa using hx)
  · rw [startsComment_iff] at hcomment
    unfold Piece.first at h
    split at h
    next hblank =>
      cases h
      exact ⟨[], rest, rfl, rfl, .blank (isBlank_iff.1 hblank)⟩
    split at h
    · unfold Piece.ofLiteral at h
      split at h <;> cases h
    split at h
    · cases h
    split at h
    · cases h
    split at h
    · cases h
    split at h <;> cases h

/-- The lexeme that is found may stand there: none is longer. -/
theorem stands_of_lexeme {l : Lexeme} {more : Nat} (hs : Text.bytes s = before ++ b :: rest)
    (h : Piece.first b rest = .lexeme l more) :
    ∃ bs after, rest = bs ++ after ∧ bs.length = more ∧ Stands ⟨b :: bs, some l⟩ after := by
  have hcomment : ¬ [Byte.slash, Byte.slash] <+: b :: rest := by
    intro hcomment
    rw [first_comment hcomment] at h
    cases h
  obtain ⟨bs, after, rfl, rfl, hspells⟩ := begins_of_first hs h
  refine ⟨bs, after, rfl, rfl, .lexeme hspells hcomment ?_⟩
  intro bs' l' hspells' hfront
  obtain ⟨l'', more, hmore⟩ := exists_first_of_spells hcomment hspells' hfront
  rw [h] at hmore
  have hlength := (Piece.lexeme.inj hmore).2
  rw [List.length_cons]
  omega

/-- Nothing can stand at the front of what is left of a text. -/
structure Stuck (rest : List UInt8) : Prop where
  nonempty : rest ≠ []
  noGap : ∀ bs after, rest = bs ++ after → ¬ Stands ⟨bs, none⟩ after
  noLexeme : ∀ bs l, Spells bs l → ¬ bs <+: rest

theorem stuck_of_fault {cause : Cause} {offset : Nat} (hs : Text.bytes s = before ++ b :: rest)
    (h : Piece.first b rest = .fault cause offset) : Stuck (b :: rest) where
  nonempty := List.cons_ne_nil b rest
  noGap bs after hrest hstands := by
    rw [hrest] at hs
    obtain ⟨b', bs', rfl, hfirst⟩ := first_of_stands hs hstands
    obtain ⟨rfl, rfl⟩ := List.cons.inj hrest
    cases hfirst.symm.trans h
  noLexeme bs l hspells hfront := by
    by_cases hcomment : [Byte.slash, Byte.slash] <+: b :: rest
    · rw [first_comment hcomment] at h
      cases h
    · obtain ⟨l', more, hfirst⟩ := exists_first_of_spells hcomment hspells hfront
      rw [h] at hfirst
      cases hfirst

end Parts

/-! ## Scanning a text that splits -/

/-- The tokens of some parts, the first of which starts at `here`. -/
def tokensFrom (here : Span) : List Part → List Token
  | [] => []
  | part :: parts =>
    (part.lexeme?.map fun l => ⟨l, here⟩).toList ++ tokensFrom (here.after part.bytes) parts

theorem lexemes_tokensFrom (here : Span) (parts : List Part) :
    (tokensFrom here parts).map Token.lexeme = lexemesOf parts := by
  induction parts generalizing here with
  | nil => rfl
  | cons part parts ih =>
      rw [tokensFrom, List.map_append, ih]
      cases hlexeme : part.lexeme? with
      | none => simp [lexemesOf, hlexeme]
      | some l => simp [lexemesOf, hlexeme]

theorem scan_of_first {here : Span} {b : UInt8} {bs rest : List UInt8} {lexeme? : Option Lexeme}
    (h : Piece.first b (bs ++ rest) = pieceOf lexeme? bs.length) :
    scan here (b :: (bs ++ rest)) =
      (scan (here.after (b :: bs)) rest).map ((lexeme?.map fun l => ⟨l, here⟩).toList ++ ·) := by
  rw [scan, h]
  cases lexeme? with
  | none =>
      simp only [pieceOf, List.take_left, List.drop_left]
      cases scan (here.after (b :: bs)) rest <;> rfl
  | some l =>
      simp only [pieceOf, List.take_left, List.drop_left]
      cases scan (here.after (b :: bs)) rest <;> rfl

/-- Scanning goes over the parts of a text, and on with what is left of it. -/
theorem scan_of_splits {s : String} {before : List UInt8} {parts : List Part} {rest : List UInt8}
    (hs : Text.bytes s = before ++ (textOf parts ++ rest)) (h : Splits parts rest)
    (here : Span) : scan here (textOf parts ++ rest) =
      (scan (here.after (textOf parts)) rest).map (tokensFrom here parts ++ ·) := by
  induction h generalizing before here with
  | nil rest => cases hscan : scan here rest <;> simp [tokensFrom, hscan, Except.map]
  | @cons part parts rest first _ ih =>
      rw [textOf_cons, List.append_assoc] at hs ⊢
      obtain ⟨b, bs, hbytes, hfirst⟩ := first_of_stands hs first
      rw [← List.append_assoc] at hs
      rw [tokensFrom, Span.after_append, hbytes, List.cons_append, scan_of_first hfirst,
        ih hs, ← hbytes]
      cases scan ((here.after part.bytes).after (textOf parts)) rest <;> simp [Except.map]

/-- Scanning stops at what is left of a text. -/
inductive Stops : List UInt8 → Prop
  | done : Stops []
  | fault {b : UInt8} {rest : List UInt8} {cause : Cause} {offset : Nat}
      (h : Piece.first b rest = .fault cause offset) : Stops (b :: rest)

/-- A text splits into parts up to where scanning stops. -/
theorem exists_splits {s : String} {before bs : List UInt8} (hs : Text.bytes s = before ++ bs) :
    ∃ parts rest, Splits parts rest ∧ textOf parts ++ rest = bs ∧ Stops rest := by
  induction hlength : bs.length using Nat.strongRecOn generalizing before bs with
  | ind length ih =>
      cases bs with
      | nil => exact ⟨[], [], .nil [], rfl, .done⟩
      | cons b bs =>
          -- Whatever part stands at the front, what follows it is shorter.
          have hnext : ∀ lexeme? inside after, bs = inside ++ after →
              Stands ⟨b :: inside, lexeme?⟩ after →
              ∃ parts rest, Splits parts rest ∧ textOf parts ++ rest = b :: bs ∧ Stops rest := by
            rintro lexeme? inside after rfl hstands
            rw [← List.cons_append, ← List.append_assoc] at hs
            rw [List.length_cons, List.length_append] at hlength
            obtain ⟨parts, rest, hsplits, htext, hstops⟩ := ih after.length (by omega) hs rfl
            refine ⟨_ :: parts, rest, .cons (htext.symm ▸ hstands) hsplits, ?_, hstops⟩
            rw [textOf_cons, List.append_assoc, htext]
            rfl
          cases hfirst : Piece.first b bs with
          | gap more =>
              obtain ⟨inside, after, hbs, -, hstands⟩ := stands_of_gap hfirst
              exact hnext none inside after hbs hstands
          | lexeme l more =>
              obtain ⟨inside, after, hbs, -, hstands⟩ := stands_of_lexeme hs hfirst
              exact hnext (some l) inside after hbs hstands
          | fault cause offset => exact ⟨[], b :: bs, .nil _, rfl, .fault hfirst⟩

/-! ## Lexemes of a split -/

theorem Spells.ne_endOfInput {bs : List UInt8} {l : Lexeme} (h : Spells bs l) :
    l ≠ .endOfInput := by
  cases h with
  | operator | mark | number | text => exact nofun
  | word =>
      unfold Lexeme.ofWord
      split <;> exact nofun

theorem Splits.spells {parts : List Part} {rest : List UInt8} (h : Splits parts rest)
    {part : Part} (hpart : part ∈ parts) {l : Lexeme} (hl : part.lexeme? = some l) :
    Spells part.bytes l := by
  induction h with
  | nil => cases hpart
  | cons first _ ih =>
      obtain rfl | hpart := List.mem_cons.1 hpart
      · cases first with
        | blank | comment => cases hl
        | lexeme spells =>
            cases hl
            exact spells
      · exact ih hpart

theorem endOfInput_notMem_lexemesOf {parts : List Part} {rest : List UInt8}
    (h : Splits parts rest) : .endOfInput ∉ lexemesOf parts := by
  intro hmem
  obtain ⟨part, hpart, hl⟩ := List.mem_filterMap.1 hmem
  exact (h.spells hpart hl).ne_endOfInput rfl

/-! ## Scanning and the grammar -/

section Tokenize

variable {source : String}

theorem tokenize_of_splits {parts : List Part} {rest : List UInt8} (h : Splits parts rest)
    (htext : textOf parts ++ rest = Text.bytes source) : tokenize source =
      (scan (Span.start.after (textOf parts)) rest).map (tokensFrom Span.start parts ++ ·) := by
  rw [tokenize, ← htext]
  rw [← List.nil_append (textOf parts ++ rest)] at htext
  exact scan_of_splits htext.symm h Span.start

theorem tokenize_of_splits_all {parts : List Part} (h : Splits parts [])
    (htext : textOf parts = Text.bytes source) :
    tokenize source = .ok (tokensFrom Span.start parts ++
      [⟨.endOfInput, Span.start.after (Text.bytes source)⟩]) := by
  rw [tokenize_of_splits h (by rw [List.append_nil, htext]), htext, scan]
  rfl

theorem tokenize_of_splits_fault {parts : List Part} {b : UInt8} {rest : List UInt8}
    {cause : Cause} {offset : Nat} (h : Splits parts (b :: rest))
    (htext : textOf parts ++ b :: rest = Text.bytes source)
    (hfault : Piece.first b rest = .fault cause offset) :
    tokenize source =
      .error ⟨cause, Span.start.after (textOf parts ++ (b :: rest).take offset)⟩ := by
  rw [tokenize_of_splits h htext, scan, hfault, Span.after_append]
  rfl

theorem exists_splits_source (source : String) : ∃ parts rest, Splits parts rest ∧
    textOf parts ++ rest = Text.bytes source ∧ Stops rest :=
  exists_splits (List.nil_append (Text.bytes source)).symm

/-- A text on which scanning succeeds splits, and its tokens are those of the parts. -/
theorem exists_splits_of_ok {tokens : List Token} (h : tokenize source = .ok tokens) :
    ∃ parts, Splits parts [] ∧ textOf parts = Text.bytes source ∧
      tokens = tokensFrom Span.start parts ++
        [⟨.endOfInput, Span.start.after (Text.bytes source)⟩] := by
  obtain ⟨parts, rest, hsplits, htext, hstops⟩ := exists_splits_source source
  cases hstops with
  | done =>
      rw [List.append_nil] at htext
      rw [tokenize_of_splits_all hsplits htext] at h
      cases h
      exact ⟨parts, hsplits, htext, rfl⟩
  | fault hfault =>
      rw [tokenize_of_splits_fault hsplits htext hfault] at h
      cases h

/-- A text on which scanning fails splits up to where the fault is found. -/
theorem exists_splits_of_error {f : Fault} (h : tokenize source = .error f) :
    ∃ parts b rest cause offset, Splits parts (b :: rest) ∧
      textOf parts ++ b :: rest = Text.bytes source ∧
      Piece.first b rest = .fault cause offset ∧
      f = ⟨cause, Span.start.after (textOf parts ++ (b :: rest).take offset)⟩ := by
  obtain ⟨parts, rest, hsplits, htext, hstops⟩ := exists_splits_source source
  cases hstops with
  | done =>
      rw [List.append_nil] at htext
      rw [tokenize_of_splits_all hsplits htext] at h
      cases h
  | @fault b rest cause offset hfault =>
      rw [tokenize_of_splits_fault hsplits htext hfault] at h
      cases h
      exact ⟨parts, b, rest, cause, offset, hsplits, htext, hfault, rfl⟩

/-- Scanning succeeds on the texts that split into gaps and longest lexemes, and on no other.
It yields the lexemes in their order, and then the end of input, once. Where it fails, the text
splits up to a place at which nothing can stand. -/
theorem tokenize_iff_splits (source : String) :
    (∀ lexemes, (∃ tokens, tokenize source = .ok tokens ∧
        tokens.map Token.lexeme = lexemes ++ [.endOfInput]) ↔
      ∃ parts, Splits parts [] ∧ textOf parts = Text.bytes source ∧ lexemesOf parts = lexemes) ∧
    (∀ tokens, tokenize source = .ok tokens →
      ∃ lexemes, tokens.map Token.lexeme = lexemes ++ [.endOfInput] ∧ .endOfInput ∉ lexemes) ∧
    (∀ fault, tokenize source = .error fault →
      ∃ parts rest, Splits parts rest ∧ textOf parts ++ rest = Text.bytes source ∧
        Stuck rest) := by
  refine ⟨fun lexemes => ⟨?_, ?_⟩, ?_, ?_⟩
  · rintro ⟨tokens, htokenize, hlexemes⟩
    obtain ⟨parts, hsplits, htext, rfl⟩ := exists_splits_of_ok htokenize
    rw [List.map_append, lexemes_tokensFrom] at hlexemes
    exact ⟨parts, hsplits, htext, List.append_cancel_right hlexemes⟩
  · rintro ⟨parts, hsplits, htext, rfl⟩
    refine ⟨_, tokenize_of_splits_all hsplits htext, ?_⟩
    rw [List.map_append, lexemes_tokensFrom]
    rfl
  · intro tokens htokenize
    obtain ⟨parts, hsplits, -, rfl⟩ := exists_splits_of_ok htokenize
    refine ⟨lexemesOf parts, ?_, endOfInput_notMem_lexemesOf hsplits⟩
    rw [List.map_append, lexemes_tokensFrom]
    rfl
  · intro f htokenize
    obtain ⟨parts, b, rest, cause, offset, hsplits, htext, hfault, -⟩ :=
      exists_splits_of_error htokenize
    exact ⟨parts, b :: rest, hsplits, htext, stuck_of_fault htext.symm hfault⟩

end Tokenize

end ScopeLang.Lexical
