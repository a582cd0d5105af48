-- SUMMARY: Scanning a text piece by piece: which texts scan to which lexemes, and which tokens a text can have.
import ScopeLang.Proofs.WellFormed
import Mathlib.Data.List.TakeWhile

/-! # Scanning

The scanner cuts the longest piece at the front of a byte sequence, so the
lexemes of a text depend on what follows it: a word goes on as long as letters
and digits do. `Scans` says which lexemes a text has whenever one of some bytes
follows it, or nothing. Texts that scan can be put one after the other.

The tokens of any text have the texts of the lexical vocabulary, and the end of
the input comes last and only there.
-/

namespace ScopeLang

/-! ## Words and digits -/

/-- What a word may start with: `[A-Za-z_]`. -/
def Text.startsWord (c : Char) : Bool :=
  c.isAlpha || c == '_'

/-- What a word may go on with: `[A-Za-z0-9_]`. -/
def Text.continuesWord (c : Char) : Bool :=
  c.isAlphanum || c == '_'

/-- The text is a word. -/
def Text.isWord (s : String) : Bool :=
  match s.toList with
  | [] => false
  | c :: cs => startsWord c && cs.all continuesWord

/-- The text is a run of one or more digits. -/
def Text.isDigits (s : String) : Bool :=
  !s.toList.isEmpty && s.toList.all Char.isDigit

/-- The texts that the scanner gives to literals and names. -/
def Vocabulary.lexical : Vocabulary where
  number s := Text.isDigits s = true
  name s := Text.isWord s = true ∧ ∀ k : Keyword, k.spelling ≠ s

/-! ## Bytes of texts -/

theorem Byte.isDigit_iff {b : UInt8} : isDigit b = true ↔ 48 ≤ b.toNat ∧ b.toNat ≤ 57 := by
  rw [isDigit, Bool.and_eq_true, decide_eq_true_iff, decide_eq_true_iff]
  rfl

theorem Byte.isWordStart_iff {b : UInt8} : isWordStart b = true ↔
    (65 ≤ b.toNat ∧ b.toNat ≤ 90) ∨ (97 ≤ b.toNat ∧ b.toNat ≤ 122) ∨ b.toNat = 95 := by
  simp only [isWordStart, Bool.or_eq_true, Bool.and_eq_true, decide_eq_true_iff, beq_iff_eq,
    UInt8.le_iff_toNat_le, ← UInt8.toNat_inj]
  change ((97 ≤ b.toNat ∧ b.toNat ≤ 122) ∨ (65 ≤ b.toNat ∧ b.toNat ≤ 90)) ∨ b.toNat = 95 ↔ _
  omega

namespace Text

theorem bytes_eq_flatMap (s : String) : bytes s = s.toList.flatMap String.utf8EncodeChar := by
  rw [bytes, ← String.utf8Encode_toList, List.utf8Encode]
  simp

/-- An ASCII character is its own byte. -/
theorem utf8EncodeChar_of_ascii {c : Char} (h : c.toNat < 128) :
    String.utf8EncodeChar c = [c.toUInt8] := by
  have hle : c.val.toNat ≤ 0x7f := Nat.le_of_lt_succ h
  rw [String.utf8EncodeChar, if_pos hle]
  rfl

/-- All bytes of any other character are above the ASCII range. -/
theorem le_of_mem_utf8EncodeChar {c : Char} (h : 128 ≤ c.toNat) {b : UInt8}
    (hb : b ∈ String.utf8EncodeChar c) : 128 ≤ b.toNat := by
  have hgt : ¬ c.val.toNat ≤ 0x7f := Nat.not_le_of_lt h
  simp only [String.utf8EncodeChar, hgt, if_false] at hb
  split at hb
  · simp only [List.mem_cons, List.not_mem_nil, or_false] at hb
    rcases hb with rfl | rfl <;> simp <;> omega
  · split at hb
    · simp only [List.mem_cons, List.not_mem_nil, or_false] at hb
      rcases hb with rfl | rfl | rfl <;> simp <;> omega
    · simp only [List.mem_cons, List.not_mem_nil, or_false] at hb
      rcases hb with rfl | rfl | rfl | rfl <;> simp <;> omega

theorem bytes_ofList (cs : List Char) :
    bytes (String.ofList cs) = cs.flatMap String.utf8EncodeChar := by
  rw [bytes_eq_flatMap, String.toList_ofList]

/-- Texts with the same bytes are the same. -/
theorem bytes_injective {s t : String} (h : bytes s = bytes t) : s = t := by
  have hback : ofBytes? (bytes s) = ofBytes? (bytes t) := congrArg ofBytes? h
  rw [ofBytes?_bytes, ofBytes?_bytes] at hback
  exact Option.some.inj hback

/-- An ASCII byte of a character is the whole of it. -/
theorem utf8EncodeChar_of_mem {c : Char} {b : UInt8} (hb : b.toNat < 128)
    (h : b ∈ String.utf8EncodeChar c) : String.utf8EncodeChar c = [b] := by
  have hc : c.toNat < 128 := by
    apply Nat.lt_of_not_le
    intro hge
    exact absurd (le_of_mem_utf8EncodeChar hge h) (Nat.not_le_of_lt hb)
  rw [utf8EncodeChar_of_ascii hc, List.mem_singleton] at h
  rw [utf8EncodeChar_of_ascii hc, h]

/-- Wherever an ASCII byte stands among the bytes of a text, the text can be cut there. -/
theorem exists_cut {s : String} {before after : List UInt8} {b : UInt8} (hb : b.toNat < 128)
    (h : bytes s = before ++ b :: after) : ∃ t u, bytes t = before ∧ bytes u = after := by
  have hchars : ∀ (cs : List Char) (before : List UInt8),
      cs.flatMap String.utf8EncodeChar = before ++ b :: after →
      ∃ t u, bytes t = before ∧ bytes u = after := by
    intro cs
    induction cs with
    | nil =>
        intro before hcs
        exact absurd hcs.symm (by simp)
    | cons c cs ih =>
        intro before hcs
        rw [List.flatMap_cons, List.append_eq_append_iff] at hcs
        have hlater : ∀ middle, before = String.utf8EncodeChar c ++ middle →
            cs.flatMap String.utf8EncodeChar = middle ++ b :: after →
            ∃ t u, bytes t = before ∧ bytes u = after := by
          intro middle hbefore hmiddle
          obtain ⟨t, u, ht, hu⟩ := ih middle hmiddle
          refine ⟨String.ofList (c :: t.toList), u, ?_, hu⟩
          rw [bytes_ofList, List.flatMap_cons, ← bytes_eq_flatMap, ht, hbefore]
        obtain ⟨middle, hbefore, hmiddle⟩ | ⟨middle, hc, hmiddle⟩ := hcs
        · exact hlater middle hbefore hmiddle
        · cases middle with
          | nil =>
              rw [List.append_nil] at hc
              exact hlater [] (by rw [hc, List.append_nil]) hmiddle.symm
          | cons x middle =>
              -- The byte is one of this character, so the character is the byte.
              obtain ⟨rfl, hafter⟩ := List.cons.inj hmiddle
              rw [utf8EncodeChar_of_mem hb (by rw [hc]; simp)] at hc
              obtain ⟨hbefore, hrest⟩ | ⟨-, hrest⟩ := List.append_eq_singleton_iff.1 hc.symm
              · obtain rfl : middle = [] := (List.cons.inj hrest).2
                exact ⟨"", String.ofList cs, hbefore.symm, (bytes_ofList cs).trans hafter.symm⟩
              · cases hrest
  exact hchars s.toList before ((bytes_eq_flatMap s).symm.trans h)

theorem startsWord_iff {c : Char} : startsWord c = true ↔
    (65 ≤ c.toNat ∧ c.toNat ≤ 90) ∨ (97 ≤ c.toNat ∧ c.toNat ≤ 122) ∨ c.toNat = 95 := by
  have hupper : c.isUpper = true ↔ 65 ≤ c.toNat ∧ c.toNat ≤ 90 := decide_eq_true_iff
  have hlower : c.isLower = true ↔ 97 ≤ c.toNat ∧ c.toNat ≤ 122 := by
    change (decide (97 ≤ c.toNat) && decide (c.toNat ≤ 122)) = true ↔ _
    simp
  have hscore : c = '_' ↔ c.toNat = 95 := Char.toNat_inj.symm
  change (c.isUpper || c.isLower || c == '_') = true ↔ _
  rw [Bool.or_eq_true, Bool.or_eq_true, beq_iff_eq, hupper, hlower, hscore, or_assoc]

theorem continuesWord_eq (c : Char) : continuesWord c = (startsWord c || c.isDigit) := by
  rw [continuesWord, startsWord, Char.isAlphanum, Bool.or_right_comm]

theorem continuesWord_of_startsWord {c : Char} (h : startsWord c = true) :
    continuesWord c = true := by
  rw [continuesWord_eq, h, Bool.true_or]

theorem continuesWord_of_isDigit {c : Char} (h : c.isDigit = true) : continuesWord c = true := by
  rw [continuesWord_eq, h, Bool.or_true]

theorem ascii_of_continuesWord {c : Char} (h : continuesWord c = true) : c.toNat < 128 := by
  rw [continuesWord_eq, Bool.or_eq_true, startsWord_iff, Char.isDigit_iff_toNat] at h
  change _ ∨ 48 ≤ c.toNat ∧ c.toNat ≤ 57 at h
  omega

theorem isDigit_ofUInt8 (b : UInt8) : (Char.ofUInt8 b).isDigit = Byte.isDigit b := by
  rw [Bool.eq_iff_iff, Char.isDigit_iff_toNat, Byte.isDigit_iff]
  rfl

theorem startsWord_ofUInt8 (b : UInt8) :
    startsWord (Char.ofUInt8 b) = Byte.isWordStart b := by
  have hcode : (Char.ofUInt8 b).toNat = b.toNat := rfl
  rw [Bool.eq_iff_iff, startsWord_iff, Byte.isWordStart_iff, hcode]

theorem continuesWord_ofUInt8 (b : UInt8) :
    continuesWord (Char.ofUInt8 b) = Byte.isWordPart b := by
  rw [continuesWord_eq, startsWord_ofUInt8, isDigit_ofUInt8, Byte.isWordPart]

theorem ofUInt8_toUInt8 {c : Char} (h : c.toNat < 128) : Char.ofUInt8 c.toUInt8 = c := by
  have hmod : c.toUInt8.toNat = c.toNat % 256 := rfl
  apply Char.ext
  apply UInt32.toNat.inj
  change c.toUInt8.toNat = c.toNat
  omega

theorem toUInt8_ofUInt8 (b : UInt8) : (Char.ofUInt8 b).toUInt8 = b :=
  UInt8.toUInt8_toUInt32 b

/-- A text of ASCII characters has one byte for each of them. -/
theorem bytes_of_ascii {s : String} (h : ∀ c ∈ s.toList, c.toNat < 128) :
    bytes s = s.toList.map Char.toUInt8 := by
  rw [bytes_eq_flatMap]
  generalize s.toList = cs at h
  induction cs with
  | nil => rfl
  | cons c cs ih =>
      rw [List.flatMap_cons, utf8EncodeChar_of_ascii (h c (by simp)),
        ih fun x hx => h x (by simp [hx])]
      rfl

/-- The bytes of a text of ASCII characters spell it. -/
theorem ofCodes_map_toUInt8 {s : String} (h : ∀ c ∈ s.toList, c.toNat < 128) :
    ofCodes (s.toList.map Char.toUInt8) = s := by
  have hmap : (s.toList.map Char.toUInt8).map Char.ofUInt8 = s.toList := by
    rw [List.map_map]
    exact (List.map_congr_left (g := id) fun c hc => ofUInt8_toUInt8 (h c hc)).trans
      (List.map_id _)
  rw [ofCodes, hmap, String.ofList_toList]

/-- The text that ASCII bytes spell has these bytes. -/
theorem bytes_ofCodes {bs : List UInt8} (h : ∀ b ∈ bs, b.toNat < 128) :
    bytes (ofCodes bs) = bs := by
  have hchars : (ofCodes bs).toList = bs.map Char.ofUInt8 := String.toList_ofList
  rw [bytes_of_ascii, hchars, List.map_map]
  · exact (List.map_congr_left (g := id) fun b _ => toUInt8_ofUInt8 b).trans (List.map_id _)
  · rw [hchars]
    intro c hc
    obtain ⟨b, hb, rfl⟩ := List.mem_map.1 hc
    exact h b hb

/-- The bytes of a word. -/
theorem exists_bytes_of_isWord {s : String} (h : isWord s = true) :
    ∃ b bs, bytes s = b :: bs ∧ Byte.isWordStart b = true ∧
      (∀ x ∈ bs, Byte.isWordPart x = true) ∧ ofCodes (b :: bs) = s := by
  cases hlist : s.toList with
  | nil => simp [isWord, hlist] at h
  | cons c cs =>
      simp only [isWord, hlist, Bool.and_eq_true, List.all_eq_true] at h
      have hascii : ∀ x ∈ s.toList, x.toNat < 128 := by
        intro x hx
        rw [hlist, List.mem_cons] at hx
        obtain rfl | hx := hx
        · exact ascii_of_continuesWord (continuesWord_of_startsWord h.1)
        · exact ascii_of_continuesWord (h.2 x hx)
      have hspell := ofCodes_map_toUInt8 hascii
      rw [hlist] at hascii hspell
      refine ⟨c.toUInt8, cs.map Char.toUInt8, ?_, ?_, ?_, hspell⟩
      · rw [bytes_of_ascii (by rwa [hlist]), hlist]
        rfl
      · rw [← startsWord_ofUInt8, ofUInt8_toUInt8 (hascii c (by simp))]
        exact h.1
      · simp only [List.mem_map, forall_exists_index, and_imp, forall_apply_eq_imp_iff₂]
        intro x hx
        rw [← continuesWord_ofUInt8, ofUInt8_toUInt8 (hascii x (by simp [hx]))]
        exact h.2 x hx

/-- The bytes of a run of digits. -/
theorem exists_bytes_of_isDigits {s : String} (h : isDigits s = true) :
    ∃ b bs, bytes s = b :: bs ∧ (∀ x ∈ b :: bs, Byte.isDigit x = true) ∧
      ofCodes (b :: bs) = s := by
  cases hlist : s.toList with
  | nil => simp [isDigits, hlist] at h
  | cons c cs =>
      simp only [isDigits, hlist, Bool.and_eq_true, List.all_eq_true] at h
      have hascii : ∀ x ∈ s.toList, x.toNat < 128 := by
        intro x hx
        rw [hlist] at hx
        exact ascii_of_continuesWord (continuesWord_of_isDigit (h.2 x hx))
      have hspell := ofCodes_map_toUInt8 hascii
      rw [hlist] at hascii hspell
      refine ⟨c.toUInt8, cs.map Char.toUInt8, ?_, ?_, hspell⟩
      · rw [bytes_of_ascii (by rwa [hlist]), hlist]
        rfl
      · rw [← List.map_cons]
        simp only [List.mem_map, forall_exists_index, and_imp, forall_apply_eq_imp_iff₂]
        intro x hx
        rw [← isDigit_ofUInt8, ofUInt8_toUInt8 (hascii x hx)]
        exact h.2 x hx

theorem isWord_ofCodes {b : UInt8} {bs : List UInt8} (hb : Byte.isWordStart b = true)
    (hbs : ∀ x ∈ bs, Byte.isWordPart x = true) : isWord (ofCodes (b :: bs)) = true := by
  simp only [isWord, ofCodes, String.toList_ofList, List.map_cons, startsWord_ofUInt8, hb,
    Bool.true_and, List.all_map, List.all_eq_true]
  intro x hx
  exact (continuesWord_ofUInt8 x).trans (hbs x hx)

theorem isDigits_ofCodes {b : UInt8} {bs : List UInt8}
    (h : ∀ x ∈ b :: bs, Byte.isDigit x = true) : isDigits (ofCodes (b :: bs)) = true := by
  have hall : (ofCodes (b :: bs)).toList.all Char.isDigit = true := by
    simp only [ofCodes, String.toList_ofList, List.all_map, List.all_eq_true]
    intro x hx
    exact (isDigit_ofUInt8 x).trans (h x hx)
  rw [isDigits, hall]
  simp [ofCodes]

end Text

/-! ## Scanning piece by piece -/

/-- The next byte, if there is one, is one that `follow` allows. -/
def NextByte (follow : UInt8 → Bool) (rest : List UInt8) : Prop :=
  ∀ b ∈ rest.head?, follow b = true

theorem NextByte.of_cons {follow : UInt8 → Bool} {b : UInt8} {bs rest : List UInt8}
    (h : follow b = true) : NextByte follow (b :: bs ++ rest) := by
  intro x hx
  cases hx
  exact h

/-- The bytes scan to the lexemes, at any place and before anything that `follow` allows. -/
def Scans (follow : UInt8 → Bool) (bs : List UInt8) (ls : List Lexeme) : Prop :=
  ∀ here rest, NextByte follow rest → ∃ ts : List Token, ts.map Token.lexeme = ls ∧
    scan here (bs ++ rest) = (scan (here.after bs) rest).map (ts ++ ·)

/-- Anything may follow. -/
def anyByte : UInt8 → Bool := fun _ => true

/-- The bytes that end a word: a blank, or one of `(`, `)`, `,` and `;`. -/
def endsWord (b : UInt8) : Bool :=
  b == 32 || b == 40 || b == 41 || b == 44 || b == 59

theorem isWordPart_of_endsWord {b : UInt8} (h : endsWord b = true) :
    Byte.isWordPart b = false := by
  simp only [endsWord, Bool.or_eq_true, beq_iff_eq] at h
  rcases h with (((rfl | rfl) | rfl) | rfl) | rfl <;> decide

/-- What is part of a word starts neither a gap nor a literal. -/
theorem ordinary_of_isWordPart {b : UInt8} (h : Byte.isWordPart b = true) :
    Byte.isBlank b = false ∧ b ≠ Byte.slash ∧ b ≠ Text.Quoted.quote := by
  refine ⟨?_, ?_, ?_⟩
  · rw [Bool.eq_false_iff]
    intro hblank
    simp only [Byte.isBlank, Bool.or_eq_true, beq_iff_eq] at hblank
    rcases hblank with ((rfl | rfl) | rfl) | rfl <;> exact absurd h (by decide)
  · rintro rfl
    exact absurd h (by decide)
  · rintro rfl
    exact absurd h (by decide)

theorem isDigit_of_isWordStart {b : UInt8} (h : Byte.isWordStart b = true) :
    Byte.isDigit b = false := by
  rw [Bool.eq_false_iff]
  intro hdigit
  rw [Byte.isWordStart_iff] at h
  rw [Byte.isDigit_iff] at hdigit
  omega

namespace Scans

variable {follow follow' : UInt8 → Bool} {b : UInt8} {bs cs : List UInt8} {l : Lexeme}
  {ls ks : List Lexeme}

theorem nil : Scans follow [] [] := by
  intro here rest _
  refine ⟨[], rfl, ?_⟩
  cases h : scan here rest <;> simp [h, Except.map]

/-- Texts that scan can be put together if the second may follow the first. -/
theorem append (h : Scans follow bs ls) (h' : Scans follow' cs ks)
    (hnext : ∀ rest, NextByte follow' rest → NextByte follow (cs ++ rest)) :
    Scans follow' (bs ++ cs) (ls ++ ks) := by
  intro here rest hrest
  obtain ⟨ts, hts, hscan⟩ := h here (cs ++ rest) (hnext rest hrest)
  obtain ⟨ts', hts', hscan'⟩ := h' (here.after bs) rest hrest
  refine ⟨ts ++ ts', by simp [hts, hts'], ?_⟩
  rw [List.append_assoc, hscan, hscan', Span.after_append]
  cases scan ((here.after bs).after cs) rest <;> simp [Except.map]

/-- A lexeme. -/
theorem lexeme (h : ∀ rest, NextByte follow rest →
    Piece.first b (bs ++ rest) = .lexeme l bs.length) : Scans follow (b :: bs) [l] := by
  intro here rest hrest
  refine ⟨[⟨l, here⟩], rfl, ?_⟩
  rw [List.cons_append, scan, h rest hrest]
  simp only [List.take_left, List.drop_left]
  cases scan (here.after (b :: bs)) rest <;> rfl

/-- A gap. -/
theorem gap (h : ∀ rest, NextByte follow rest →
    Piece.first b (bs ++ rest) = .gap bs.length) : Scans follow (b :: bs) [] := by
  intro here rest hrest
  refine ⟨[], rfl, ?_⟩
  rw [List.cons_append, scan, h rest hrest]
  simp only [List.take_left, List.drop_left]
  cases scan (here.after (b :: bs)) rest <;> rfl

/-- Whatever follows the first text, if that stands on its own. -/
theorem appendAny (h : Scans anyByte bs ls) (h' : Scans follow cs ks) :
    Scans follow (bs ++ cs) (ls ++ ks) :=
  h.append h' fun _ _ _ _ => rfl

/-- Blanks are no lexemes. -/
theorem blanks (h : ∀ x ∈ bs, Byte.isBlank x = true) : Scans follow bs [] := by
  induction bs with
  | nil => exact nil
  | cons b bs ih =>
      have hb : Byte.isBlank b = true := h b (by simp)
      have hfirst : Scans anyByte [b] [] := gap fun rest _ => if_pos hb
      exact hfirst.appendAny (ih fun x hx => h x (by simp [hx]))

theorem takeWhile_append {p : UInt8 → Bool} {rest : List UInt8} (h : ∀ x ∈ bs, p x = true)
    (hrest : ∀ b ∈ rest.head?, p b = false) : (bs ++ rest).takeWhile p = bs := by
  rw [List.takeWhile_append_of_pos h]
  cases rest with
  | nil => simp
  | cons b rest => simp [hrest b rfl]

/-- A word, if it does not go on. -/
theorem word {w : String} (h : Text.isWord w = true) :
    Scans endsWord (Text.bytes w) [.ofWord w] := by
  obtain ⟨b, bs, hbytes, hb, hbs, hspell⟩ := Text.exists_bytes_of_isWord h
  rw [hbytes]
  refine lexeme fun rest hrest => ?_
  have hpart : Byte.isWordPart b = true := by simp [Byte.isWordPart, hb]
  obtain ⟨hblank, hslash, hquote⟩ := ordinary_of_isWordPart hpart
  have hdigit := isDigit_of_isWordStart hb
  have htake := takeWhile_append hbs fun x hx => isWordPart_of_endsWord (hrest x hx)
  simp [Piece.first, hblank, hslash, hquote, hdigit, hb, htake, hspell]

/-- An integer literal, if it does not go on. -/
theorem digits {w : String} (h : Text.isDigits w = true) :
    Scans endsWord (Text.bytes w) [.number w] := by
  obtain ⟨b, bs, hbytes, hbs, hspell⟩ := Text.exists_bytes_of_isDigits h
  rw [hbytes]
  refine lexeme fun rest hrest => ?_
  have hb := hbs b (by simp)
  have hpart : Byte.isWordPart b = true := by simp [Byte.isWordPart, hb]
  obtain ⟨hblank, hslash, hquote⟩ := ordinary_of_isWordPart hpart
  have htake : (bs ++ rest).takeWhile Byte.isDigit = bs := by
    refine takeWhile_append (fun x hx => hbs x (by simp [hx])) fun x hx => ?_
    exact (Bool.or_eq_false_iff.1 (isWordPart_of_endsWord (hrest x hx))).2
  simp [Piece.first, hblank, hslash, hquote, hb, htake, hspell]

/-- A mark that is no part of a longer lexeme. -/
theorem mark {m : Mark} (h : m ≠ .assign) : Scans follow (Text.bytes m.spelling) [.mark m] := by
  cases m with
  | assign => exact absurd rfl h
  | _ => exact lexeme fun rest _ => rfl

/-- A lexeme of one byte that a blank keeps from going on. -/
theorem beforeBlank (hnil : Piece.first b [] = .lexeme l 0)
    (hblank : ∀ rest, Piece.first b (32 :: rest) = .lexeme l 0) : Scans (· == 32) [b] [l] := by
  refine lexeme fun rest hrest => ?_
  cases rest with
  | nil => exact hnil
  | cons x rest =>
      obtain rfl : x = 32 := eq_of_beq (hrest x rfl)
      exact hblank rest

theorem operator (op : Operator) : Scans (· == 32) (Text.bytes op.spelling) [.operator op] := by
  rcases op with op | op | op <;> cases op
  case arithmetic.add | arithmetic.sub | arithmetic.mul | arithmetic.div | comparison.greater
    | comparison.less => exact beforeBlank rfl fun _ => rfl
  all_goals exact lexeme fun rest _ => rfl

theorem assign : Scans (· == 32) (Text.bytes Mark.assign.spelling) [.mark .assign] :=
  beforeBlank rfl fun _ => rfl

end Scans

/-! ## String literals -/

namespace Text.Quoted

/-- The byte stands for itself in the body of a literal. -/
def IsPlain (b : UInt8) : Prop :=
  b ≠ Span.lineFeed ∧ b ≠ quote ∧ b ≠ backslash

theorem scanBody_quote (rest : List UInt8) : scanBody (quote :: rest) = .closed [] 1 := by
  rw [scanBody.eq_def]
  simp [quote, Span.lineFeed]

theorem scanBody_cons {b : UInt8} (h : IsPlain b) (rest : List UInt8) :
    scanBody (b :: rest) = (scanBody rest).prepend b 1 := by
  obtain ⟨hfeed, hquote, hslash⟩ := h
  rw [scanBody.eq_def]
  simp [hfeed, hquote, hslash]

theorem scanBody_escape_cons {letter c : UInt8} (h : meaning? letter = some c)
    (rest : List UInt8) :
    scanBody (backslash :: letter :: rest) = (scanBody rest).prepend c 2 := by
  rw [scanBody.eq_def]
  simp [backslash, quote, Span.lineFeed, h]

theorem scanBody_append {bs rest content : List UInt8} {width : Nat} (h : ∀ b ∈ bs, IsPlain b)
    (hrest : scanBody rest = .closed content width) :
    scanBody (bs ++ rest) = .closed (bs ++ content) (width + bs.length) := by
  induction bs with
  | nil => exact hrest
  | cons b bs ih =>
      rw [List.cons_append, scanBody_cons (h b (by simp)), ih fun x hx => h x (by simp [hx])]
      rfl

/-- The bytes of a character that is not escaped stand for themselves. -/
theorem isPlain_of_mem_utf8EncodeChar {c : Char} (h : letter? c = none) {b : UInt8}
    (hb : b ∈ String.utf8EncodeChar c) : IsPlain b := by
  by_cases hc : c.toNat < 128
  · rw [utf8EncodeChar_of_ascii hc, List.mem_singleton] at hb
    have hchar : Char.ofUInt8 b = c := by rw [hb, ofUInt8_toUInt8 hc]
    rw [← hchar] at h
    refine ⟨?_, ?_, ?_⟩ <;> rintro rfl <;> exact absurd h (by decide)
  · have hge := le_of_mem_utf8EncodeChar (Nat.le_of_not_lt hc) hb
    refine ⟨?_, ?_, ?_⟩ <;> rintro rfl <;> exact absurd hge (by decide)

/-- A character as it is written is read back. -/
theorem scanBody_escapeChar (c : Char) {rest content : List UInt8} {width : Nat}
    (hrest : scanBody rest = .closed content width) :
    scanBody ((escapeChar c).flatMap String.utf8EncodeChar ++ rest) =
      .closed (String.utf8EncodeChar c ++ content)
        (width + ((escapeChar c).flatMap String.utf8EncodeChar).length) := by
  cases hletter : letter? c with
  | none =>
      rw [escapeChar, hletter, List.flatMap_singleton]
      exact scanBody_append (fun b hb => isPlain_of_mem_utf8EncodeChar hletter hb) hrest
  | some letter =>
      -- Each of the four is one byte, and so are the backslash and the letter.
      have hbytes : ∃ a b : UInt8, (escapeChar c).flatMap String.utf8EncodeChar = [backslash, a] ∧
          String.utf8EncodeChar c = [b] ∧ meaning? a = some b := by
        rw [escapeChar, hletter]
        unfold letter? at hletter
        split at hletter <;> cases hletter <;> exact ⟨_, _, rfl, rfl, rfl⟩
      obtain ⟨a, b, hescaped, hplain, hmeaning⟩ := hbytes
      rw [hescaped, hplain]
      change scanBody (backslash :: a :: rest) = _
      rw [scanBody_escape_cons hmeaning, hrest]
      rfl

/-- The body of the literal of a text ends where it should, and the text is its content. -/
theorem scanBody_escape (s : String) (rest : List UInt8) :
    scanBody (bytes (escape s) ++ quote :: rest) =
      .closed (bytes s) ((bytes (escape s)).length + 1) := by
  have hchars : ∀ cs : List Char,
      scanBody ((cs.flatMap escapeChar).flatMap String.utf8EncodeChar ++ quote :: rest) =
        .closed (cs.flatMap String.utf8EncodeChar)
          (((cs.flatMap escapeChar).flatMap String.utf8EncodeChar).length + 1) := by
    intro cs
    induction cs with
    | nil => exact scanBody_quote rest
    | cons c cs ih =>
        rw [List.flatMap_cons, List.flatMap_append, List.append_assoc, scanBody_escapeChar c ih,
          List.flatMap_cons, List.length_append]
        congr 1
        omega
  rw [bytes_eq_flatMap s, bytes_eq_flatMap (escape s), escape, String.toList_ofList]
  exact hchars s.toList

end Text.Quoted

theorem Text.Quoted.bytes_literal (s : String) :
    bytes (literal s) = quote :: (bytes (escape s) ++ [quote]) := by
  rw [literal, bytes_append, bytes_append, List.append_assoc]
  rfl

/-- The literal of a text is found behind its opening quote, whatever follows. -/
theorem Piece.first_literal (s : String) (rest : List UInt8) :
    first Text.Quoted.quote (Text.bytes (Text.Quoted.escape s) ++ [Text.Quoted.quote] ++ rest) =
      .lexeme (.text s) (Text.bytes (Text.Quoted.escape s) ++ [Text.Quoted.quote]).length := by
  change ofLiteral _ = _
  rw [List.append_assoc, List.singleton_append, ofLiteral, Text.Quoted.scanBody_escape]
  simp

/-- The literal of a text, whatever follows. -/
theorem Scans.literal {follow : UInt8 → Bool} (s : String) :
    Scans follow (Text.bytes (Text.Quoted.literal s)) [.text s] := by
  rw [Text.Quoted.bytes_literal]
  exact lexeme fun rest _ => Piece.first_literal s rest

/-! ## Tokens of a text -/

/-- A lexeme that the scanner can yield: its text is one of the lexical vocabulary. -/
def Lexeme.IsLexical (l : Lexeme) : Prop :=
  l ≠ .endOfInput ∧ Vocabulary.lexical.Admits l

theorem Lexeme.isLexical_of_fixed {l : Lexeme} (h : l ∈ fixed) : l.IsLexical := by
  revert l
  simp [fixed, IsLexical, Vocabulary.Admits]

theorem Lexeme.isLexical_ofWord {w : String} (h : Text.isWord w = true) :
    (ofWord w).IsLexical := by
  unfold ofWord
  split
  next k hk => exact ⟨nofun, trivial⟩
  next hnone =>
    refine ⟨nofun, h, ?_⟩
    intro k hk
    have hmem : k ∈ Keyword.all := by cases k <;> decide
    have hfind := List.find?_eq_none.1 hnone k hmem
    exact hfind (beq_iff_eq.2 hk)

theorem Piece.isLexical_of_first {b : UInt8} {rest : List UInt8} {l : Lexeme} {more : Nat}
    (h : Piece.first b rest = .lexeme l more) : l.IsLexical := by
  unfold Piece.first at h
  split at h
  · cases h
  split at h
  · cases h
  split at h
  · unfold Piece.ofLiteral at h
    split at h <;> cases h
    exact ⟨nofun, trivial⟩
  split at h
  next hb =>
    cases h
    refine ⟨nofun, Text.isDigits_ofCodes ?_⟩
    simp only [List.mem_cons, forall_eq_or_imp]
    exact ⟨hb, fun x hx => List.mem_takeWhile_imp hx⟩
  split at h
  next hb =>
    cases h
    exact Lexeme.isLexical_ofWord (Text.isWord_ofCodes hb fun x hx => List.mem_takeWhile_imp hx)
  split at h
  next l' hl =>
    cases h
    exact Lexeme.isLexical_of_fixed (List.mem_of_find?_eq_some hl)
  split at h <;> cases h

/-- The tokens of a text are lexical, and then the input ends. -/
theorem exists_tokens_of_scan {here : Span} {bs : List UInt8} {tokens : List Token}
    (h : scan here bs = .ok tokens) :
    ∃ ts stop, tokens = ts ++ [stop] ∧ stop.isEnd = true ∧ ∀ t ∈ ts, t.lexeme.IsLexical := by
  fun_induction scan here bs generalizing tokens with
  | case1 here =>
      cases h
      exact ⟨[], _, rfl, rfl, by simp⟩
  | case2 here b rest more hpiece ih => exact ih h
  | case3 here b rest l more hpiece ih =>
      cases hscan : scan (here.after (b :: rest.take more)) (rest.drop more) with
      | error f =>
          rw [hscan] at h
          cases h
      | ok inner =>
          rw [hscan] at h
          cases h
          obtain ⟨ts, stop, hinner, hstop, hts⟩ := ih hscan
          refine ⟨⟨l, here⟩ :: ts, stop, by rw [hinner]; rfl, hstop, ?_⟩
          simp only [List.mem_cons, forall_eq_or_imp]
          exact ⟨Piece.isLexical_of_first hpiece, hts⟩
  | case4 here b rest cause offset hpiece => cases h

end ScopeLang
