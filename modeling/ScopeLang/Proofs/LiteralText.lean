-- SUMMARY: A string literal, which is scanned byte by byte, has the text that its characters spell.
import ScopeLang.Proofs.LexicalGrammar

/-! # Texts of literals

Literals are scanned byte by byte, but they are texts, and what they stand for is
said of characters: a backslash and the letter behind it are one character, and
every other character is itself. Quotes, backslashes, line feeds and the letters of
escapes are single bytes that no other character contains, so the two readings
agree: wherever a literal is accepted in a text, the bytes that are collected are
those of the unescaped text between its quotes.

The literal of a text is scanned as this text, and the scan goes on behind the
closing quote, whatever follows there.
-/

namespace ScopeLang

/-! ## Characters of a literal -/

namespace Text.Quoted

/-- The character that a letter behind a backslash stands for. -/
def escaped? : Char → Option Char
  | 'n' => some '\n'
  | 't' => some '\t'
  | '\"' => some '\"'
  | '\\' => some '\\'
  | _ => none

/-- What the characters between the quotes of a literal stand for. Among them are no quotes and no
line feeds, and no backslashes but those of escapes. -/
def unescape? : List Char → Option (List Char)
  | [] => some []
  | '\\' :: letter :: cs =>
    match escaped? letter with
    | some c => (unescape? cs).map (c :: ·)
    | none => none
  | c :: cs => if c = '\\' ∨ c = '\"' ∨ c = '\n' then none else (unescape? cs).map (c :: ·)

end Text.Quoted

namespace Lexical

open Text.Quoted (quote backslash IsPlain escaped? unescape?)
open String (utf8EncodeChar)

/-! ## Bytes and characters -/

theorem utf8EncodeChar_injective {c d : Char} (h : utf8EncodeChar c = utf8EncodeChar d) :
    c = d := by
  have hbytes : Text.bytes (String.ofList [c]) = Text.bytes (String.ofList [d]) := by
    rw [Text.bytes_ofList, Text.bytes_ofList, List.flatMap_singleton, List.flatMap_singleton, h]
  exact (List.cons.inj (String.ofList_injective (Text.bytes_injective hbytes))).1

/-- An escape is a letter of one byte for a character of one byte. -/
theorem isEscape_iff {letter : Char} {l c : UInt8} (h : utf8EncodeChar letter = [l]) :
    IsEscape l c ↔ ∃ d, escaped? letter = some d ∧ utf8EncodeChar d = [c] := by
  constructor
  · intro hescape
    cases hescape with
    | lineFeed =>
        obtain rfl : letter = 'n' := utf8EncodeChar_injective h
        exact ⟨'\n', rfl, rfl⟩
    | tab =>
        obtain rfl : letter = 't' := utf8EncodeChar_injective h
        exact ⟨'\t', rfl, rfl⟩
    | quote =>
        obtain rfl : letter = '\"' := utf8EncodeChar_injective h
        exact ⟨'\"', rfl, rfl⟩
    | backslash =>
        obtain rfl : letter = '\\' := utf8EncodeChar_injective h
        exact ⟨'\\', rfl, rfl⟩
  · rintro ⟨d, hd, hc⟩
    unfold escaped? at hd
    split at hd <;> cases hd <;> cases h <;> cases hc
    · exact .lineFeed
    · exact .tab
    · exact .quote
    · exact .backslash

/-- A character that is no backslash, quote or line feed has no such byte either. -/
theorem isPlain_of_mem {c : Char} (h : ¬ (c = '\\' ∨ c = '\"' ∨ c = '\n')) {b : UInt8}
    (hb : b ∈ utf8EncodeChar c) : IsPlain b := by
  have hsame : ∀ d : Char, utf8EncodeChar d = [b] → b.toNat < 128 → c = d := by
    intro d hd hascii
    exact utf8EncodeChar_injective ((Text.utf8EncodeChar_of_mem hascii hb).trans hd.symm)
  refine ⟨?_, ?_, ?_⟩
  · rintro rfl
    exact h (.inr (.inr (hsame '\n' rfl (by decide))))
  · rintro rfl
    exact h (.inr (.inl (hsame '\"' rfl (by decide))))
  · rintro rfl
    exact h (.inl (hsame '\\' rfl (by decide)))

/-! ## What is written, by bytes and by characters -/

section Written

variable {b : UInt8} {bs rest content : List UInt8}

/-- A byte that stands for itself is part of what is written. -/
theorem written_cons_iff (hb : IsPlain b) :
    Written (b :: rest) content ↔ ∃ tail, content = b :: tail ∧ Written rest tail := by
  constructor
  · intro h
    cases h with
    | plain _ hraw => exact ⟨_, rfl, hraw⟩
    | escaped => exact absurd rfl hb.2.2
  · rintro ⟨tail, rfl, htail⟩
    exact .plain hb htail

theorem written_append_iff (h : ∀ x ∈ bs, IsPlain x) :
    Written (bs ++ rest) content ↔ ∃ tail, content = bs ++ tail ∧ Written rest tail := by
  induction bs generalizing content with
  | nil => simp
  | cons x bs ih =>
      obtain ⟨hx, hbs⟩ := List.forall_mem_cons.1 h
      rw [List.cons_append, written_cons_iff hx]
      constructor
      · rintro ⟨tail, rfl, htail⟩
        obtain ⟨tail, rfl, hrest⟩ := (ih hbs).1 htail
        exact ⟨tail, rfl, hrest⟩
      · rintro ⟨tail, rfl, htail⟩
        exact ⟨bs ++ tail, rfl, (ih hbs).2 ⟨tail, rfl, htail⟩⟩

/-- What is not plain begins an escape or is not written at all. -/
theorem not_written_of_not_isPlain (hb : ¬ IsPlain b) (hescape : b ≠ backslash ∨ rest = []) :
    ¬ Written (b :: rest) content := by
  intro h
  cases h with
  | plain hplain => exact hb hplain
  | escaped => exact hescape.elim (absurd rfl) (fun hnil => List.cons_ne_nil _ _ hnil)

/-- A backslash is followed by a letter of one byte. -/
theorem written_backslash_iff {letter : Char} :
    Written (backslash :: (utf8EncodeChar letter ++ rest)) content ↔
      ∃ d tail, escaped? letter = some d ∧ content = utf8EncodeChar d ++ tail ∧
        Written rest tail := by
  constructor
  · intro h
    generalize hraw : utf8EncodeChar letter ++ rest = raw at h
    cases h with
    | plain hplain => exact absurd rfl hplain.2.2
    | @escaped l c raw tail hletter htail =>
        -- The letter is an ASCII byte, so it is all of its character.
        have hascii : l.toNat < 128 := by cases hletter <;> decide
        obtain ⟨x, xs, hbytes⟩ := List.exists_cons_of_ne_nil
          (String.utf8EncodeChar_ne_nil (c := letter))
        rw [hbytes] at hraw
        obtain ⟨rfl, hrest⟩ := List.cons.inj hraw
        have hone := Text.utf8EncodeChar_of_mem hascii (hbytes ▸ List.mem_cons_self)
        obtain ⟨d, hd, hc⟩ := (isEscape_iff hone).1 hletter
        obtain rfl : [] = xs := (List.cons.inj (hone.symm.trans hbytes)).2
        subst hrest
        exact ⟨d, tail, hd, by rw [hc]; rfl, htail⟩
  · rintro ⟨d, tail, hd, rfl, htail⟩
    have hbytes : ∃ l c, utf8EncodeChar letter = [l] ∧ utf8EncodeChar d = [c] := by
      unfold escaped? at hd
      split at hd <;> cases hd <;> exact ⟨_, _, rfl, rfl⟩
    obtain ⟨l, c, hl, hc⟩ := hbytes
    rw [hl, hc]
    exact .escaped ((isEscape_iff hl).2 ⟨d, hd, hc⟩) htail

end Written

theorem exists_map_cons_iff {c : Char} {result : Option (List Char)} {content : List UInt8} :
    (∃ ds, result.map (c :: ·) = some ds ∧ content = ds.flatMap utf8EncodeChar) ↔
      ∃ tail, content = utf8EncodeChar c ++ tail ∧
        ∃ ds, result = some ds ∧ tail = ds.flatMap utf8EncodeChar := by
  constructor
  · rintro ⟨_, hresult, rfl⟩
    obtain ⟨ds, hds, rfl⟩ := Option.map_eq_some_iff.1 hresult
    exact ⟨_, List.flatMap_cons, ds, hds, rfl⟩
  · rintro ⟨_, rfl, ds, rfl, rfl⟩
    exact ⟨c :: ds, rfl, List.flatMap_cons.symm⟩

/-- What is written byte by byte in a text is its unescaping, character by character. -/
theorem written_iff_unescape (cs : List Char) (content : List UInt8) :
    Written (cs.flatMap utf8EncodeChar) content ↔
      ∃ ds, unescape? cs = some ds ∧ content = ds.flatMap utf8EncodeChar := by
  fun_induction unescape? cs generalizing content with
  | case1 =>
      constructor
      · rintro ⟨⟩
        exact ⟨[], rfl, rfl⟩
      · rintro ⟨_, ⟨⟩, rfl⟩
        exact .nil
  | case2 letter cs c hc ih =>
      have hbytes : ('\\' :: letter :: cs).flatMap utf8EncodeChar =
          backslash :: (utf8EncodeChar letter ++ cs.flatMap utf8EncodeChar) := rfl
      rw [exists_map_cons_iff, hbytes, written_backslash_iff]
      simp [hc, ih]
  | case3 letter cs hnone =>
      refine written_backslash_iff.trans ?_
      simp [hnone]
  | case4 c cs hletter hstop =>
      refine iff_of_false ?_ (by simp)
      rcases hstop with rfl | rfl | rfl
      · -- A backslash at the very end.
        obtain rfl : cs = [] := by
          cases cs with
          | nil => rfl
          | cons letter cs => exact absurd rfl (hletter letter cs rfl)
        exact not_written_of_not_isPlain (fun hplain => hplain.2.2 rfl) (.inr rfl)
      · exact not_written_of_not_isPlain (fun hplain => hplain.2.1 rfl) (.inl (by decide))
      · exact not_written_of_not_isPlain (fun hplain => hplain.1 rfl) (.inl (by decide))
  | case5 c cs hletter hplain ih =>
      rw [exists_map_cons_iff, List.flatMap_cons]
      simp only [← ih]
      exact written_append_iff fun b hb => isPlain_of_mem hplain hb

/-! ## Literals in a text -/

section Literals

variable {source : String} {before rest content : List UInt8} {width : Nat}

/-- A literal that is closed in a text: the bytes between its quotes are a text, and so are those
that are collected. -/
theorem exists_unescape (hs : Text.bytes source = before ++ quote :: rest)
    (h : Text.Quoted.scanBody rest = .closed content width) :
    ∃ start raw text after : String,
      source = start ++ "\"" ++ raw ++ "\"" ++ after ∧ Text.bytes start = before ∧
      width = (Text.bytes raw).length + 1 ∧ content = Text.bytes text ∧
      unescape? raw.toList = some text.toList := by
  obtain ⟨start, remainder, hstart, hremainder⟩ := Text.exists_cut (by decide) hs
  have hreads := reads_scanBody rest
  rw [h] at hreads
  generalize hrest : rest = rest' at hreads
  cases hreads with
  | closed hwritten =>
      rw [hrest] at hremainder
      obtain ⟨raw, after, rfl, rfl⟩ := Text.exists_cut (by decide) hremainder
      rw [Text.bytes_eq_flatMap raw, written_iff_unescape] at hwritten
      obtain ⟨ds, hds, rfl⟩ := hwritten
      refine ⟨start, raw, String.ofList ds, after, ?_, hstart, rfl, ?_, ?_⟩
      · apply Text.bytes_injective
        rw [hs, hrest, ← hstart]
        simp only [Text.bytes_append, List.append_assoc]
        rfl
      · rw [Text.bytes_ofList]
      · rw [hds, String.toList_ofList]

/-- A literal that is closed is the lexeme of what is collected. -/
theorem first_of_closed {text : String}
    (h : Text.Quoted.scanBody rest = .closed (Text.bytes text) width) :
    Piece.first quote rest = .lexeme (.text text) width := by
  rw [first_quote, Piece.ofLiteral, h]
  simp

theorem Spells.exists_written {bs : List UInt8} {text : String} (h : Spells bs (.text text)) :
    ∃ raw, bs = quote :: raw ++ [quote] ∧ Written raw (Text.bytes text) := by
  generalize hl : Lexeme.text text = l at h
  cases h with
  | operator | mark | number => cases hl
  | word =>
      unfold Lexeme.ofWord at hl
      split at hl <;> cases hl
  | @text raw content hwritten =>
      cases hl
      exact ⟨raw, rfl, hwritten⟩

/-- A token is one of the parts that a text splits into, and stands where the part does. -/
theorem exists_part_of_mem {here : Span} {parts : List Part} {tok : Token}
    (h : tok ∈ tokensFrom here parts) :
    ∃ earlier part later, parts = earlier ++ part :: later ∧ part.lexeme? = some tok.lexeme ∧
      tok.span = here.after (textOf earlier) := by
  induction parts generalizing here with
  | nil => cases h
  | cons part parts ih =>
      rw [tokensFrom, List.mem_append] at h
      obtain hfirst | hothers := h
      · rw [Option.mem_toList, Option.map_eq_some_iff] at hfirst
        obtain ⟨l, hl, rfl⟩ := hfirst
        exact ⟨[], part, parts, rfl, hl, rfl⟩
      · obtain ⟨earlier, found, later, rfl, hl, hspan⟩ := ih hothers
        refine ⟨part :: earlier, found, later, rfl, hl, ?_⟩
        rw [hspan, textOf_cons, Span.after_append]

/-- A token for a literal is found at its opening quote. -/
theorem exists_literal_of_mem {tokens : List Token} {tok : Token} {text : String}
    (h : tokenize source = .ok tokens) (hmem : tok ∈ tokens) (htext : tok.lexeme = .text text) :
    ∃ before rest width, Text.bytes source = before ++ quote :: rest ∧
      tok.span = Span.start.after before ∧
      Text.Quoted.scanBody rest = .closed (Text.bytes text) width := by
  obtain ⟨parts, hsplits, hparts, rfl⟩ := exists_splits_of_ok h
  obtain hmem | hend := List.mem_append.1 hmem
  · obtain ⟨earlier, part, later, rfl, hl, hspan⟩ := exists_part_of_mem hmem
    have hpart : part ∈ earlier ++ part :: later := by simp
    obtain ⟨raw, hraw, hwritten⟩ := (hsplits.spells hpart (hl.trans (by rw [htext]))).exists_written
    refine ⟨textOf earlier, _, _, ?_, hspan, scanBody_of_written hwritten (textOf later)⟩
    rw [← hparts]
    simp [textOf, hraw]
  · obtain rfl := List.mem_singleton.1 hend
    cases htext

end Literals

/-- The literal of a text is scanned as this text, and the scan goes on behind it. -/
theorem scan_literal (s : String) (here : Span) (follow : List UInt8) :
    scan here (Text.bytes (Text.Quoted.literal s) ++ follow) =
      (scan (here.after (Text.bytes (Text.Quoted.literal s))) follow).map
        (⟨.text s, here⟩ :: ·) := by
  have hfirst : Piece.first quote (Text.bytes (Text.Quoted.escape s) ++ [quote] ++ follow) =
      pieceOf (some (.text s)) (Text.bytes (Text.Quoted.escape s) ++ [quote]).length :=
    Piece.first_literal s follow
  rw [Text.Quoted.bytes_literal, List.cons_append, scan_of_first hfirst]
  rfl

/-- Wherever a literal is accepted in a text, the bytes that are collected are a text, which is
the unescaping of what stands between the quotes, character by character; and it is the text of
the lexeme. So it is with every token for a literal. The literal of any text is the first lexeme
that is found, up to its closing quote, whatever follows; and what follows is scanned from behind
the quote on. -/
theorem literals_unescaped_by_characters (source s : String) :
    (∀ before rest content width, Text.bytes source = before ++ quote :: rest →
      Text.Quoted.scanBody rest = .closed content width →
      ∃ start raw text after : String,
        source = start ++ "\"" ++ raw ++ "\"" ++ after ∧ Text.bytes start = before ∧
        width = (Text.bytes raw).length + 1 ∧ content = Text.bytes text ∧
        unescape? raw.toList = some text.toList ∧
        Piece.first quote rest = .lexeme (.text text) width) ∧
    (∀ tokens tok text, tokenize source = .ok tokens → tok ∈ tokens → tok.lexeme = .text text →
      ∃ start raw after : String,
        source = start ++ "\"" ++ raw ++ "\"" ++ after ∧
        tok.span = Span.start.after (Text.bytes start) ∧
        unescape? raw.toList = some text.toList) ∧
    (∃ rest, Text.bytes (Text.Quoted.literal s) = quote :: rest ∧
      ∀ follow, Piece.first quote (rest ++ follow) = .lexeme (.text s) rest.length) ∧
    (∀ here follow, scan here (Text.bytes (Text.Quoted.literal s) ++ follow) =
      (scan (here.after (Text.bytes (Text.Quoted.literal s))) follow).map
        (⟨.text s, here⟩ :: ·)) := by
  refine ⟨?_, ?_, ?_, scan_literal s⟩
  · intro before rest content width hs hclosed
    obtain ⟨start, raw, text, after, hsource, hstart, hwidth, rfl, hunescape⟩ :=
      exists_unescape hs hclosed
    exact ⟨start, raw, text, after, hsource, hstart, hwidth, rfl, hunescape,
      first_of_closed hclosed⟩
  · intro tokens tok text htokenize hmem htext
    obtain ⟨before, rest, width, hs, hspan, hclosed⟩ := exists_literal_of_mem htokenize hmem htext
    obtain ⟨start, raw, text', after, hsource, rfl, -, hcontent, hunescape⟩ :=
      exists_unescape hs hclosed
    obtain rfl := Text.bytes_injective hcontent
    exact ⟨start, raw, after, hsource, hspan, hunescape⟩
  · exact ⟨_, Text.Quoted.bytes_literal s, Piece.first_literal s⟩

end Lexical

end ScopeLang
