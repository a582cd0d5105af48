-- SUMMARY: Integers that are printed are read back, and which words are read as which integers.
import Mathlib.Data.List.Induction
import ScopeLang.Proofs.InputAnswers
import ScopeLang.Proofs.IntegerExpressions

/-! # Printed integers

A word is read as an integer if it is a decimal whose value fits: an optional sign
and one or more digits. A read takes one word from the input, whether it is an
integer or not. A printed integer is such a decimal on a line of its own, so the
output of some prints, used as input, is read as the same integers in the same
order, and then ends.
-/

namespace ScopeLang

/-! ## Decimals -/

namespace Decimal

/-- A run of one or more digits, and its value. -/
inductive Digits : List Char → Nat → Prop
  | one {c : Char} (digit : c.isDigit = true) : Digits [c] (c.toNat - '0'.toNat)
  | more {cs : List Char} {n : Nat} {c : Char} (front : Digits cs n) (digit : c.isDigit = true) :
      Digits (cs ++ [c]) (10 * n + (c.toNat - '0'.toNat))

/-- A decimal, and its value. -/
inductive Denotes : List Char → Int → Prop
  | unsigned {cs : List Char} {n : Nat} (digits : Digits cs n) : Denotes cs n
  | plus {cs : List Char} {n : Nat} (digits : Digits cs n) : Denotes ('+' :: cs) n
  | minus {cs : List Char} {n : Nat} (digits : Digits cs n) : Denotes ('-' :: cs) (-n)

section Values

variable {cs : List Char} {n : Nat} {v : Int}

/-- Digits have the value that they are folded to. -/
theorem digits_ofDigitChars (hne : cs ≠ []) (hdigits : ∀ c ∈ cs, c.isDigit = true) :
    Digits cs (Nat.ofDigitChars 10 cs 0) := by
  -- The value goes from left to right, so the last digit is taken off.
  induction cs using List.reverseRecOn with
  | nil => exact absurd rfl hne
  | append_singleton front c ih =>
      have hc : c.isDigit = true := hdigits c (by simp)
      rw [Nat.ofDigitChars_append]
      by_cases hfront : front = []
      · subst hfront
        simpa [Nat.ofDigitChars] using Digits.one hc
      · exact .more (ih hfront fun x hx => hdigits x (by simp [hx])) hc

theorem Digits.ne_nil (h : Digits cs n) : cs ≠ [] := by
  cases h <;> simp

theorem Digits.isDigit (h : Digits cs n) : ∀ c ∈ cs, c.isDigit = true := by
  induction h with
  | one digit => simpa using digit
  | more _ digit ih =>
      intro c hc
      obtain hc | hc := List.mem_append.1 hc
      · exact ih c hc
      · rwa [List.mem_singleton.1 hc]

theorem Digits.value (h : Digits cs n) : Nat.ofDigitChars 10 cs 0 = n := by
  induction h with
  | one => simp [Nat.ofDigitChars]
  | more _ _ ih =>
      rw [Nat.ofDigitChars_append, ih]
      rfl

theorem digits?_eq_some_iff : digits? cs = some n ↔ Digits cs n := by
  unfold digits?
  constructor
  · intro h
    split at h
    next hdigits =>
      cases h
      simp only [Bool.and_eq_true, Bool.not_eq_true', List.isEmpty_eq_false_iff,
        List.all_eq_true] at hdigits
      exact digits_ofDigitChars hdigits.1 hdigits.2
    next => cases h
  · intro h
    rw [if_pos, h.value]
    simpa using ⟨h.ne_nil, h.isDigit⟩

/-- A decimal without a sign is read from its first digit on. -/
theorem value?_of_digits (h : Digits cs n) : value? cs = some n := by
  have hsign : ∀ c rest, c.isDigit = false → cs ≠ c :: rest := by
    rintro c rest hc rfl
    rw [h.isDigit c List.mem_cons_self] at hc
    cases hc
  unfold value?
  split
  next => exact absurd rfl (hsign '-' _ rfl)
  next => exact absurd rfl (hsign '+' _ rfl)
  next =>
    rw [digits?_eq_some_iff.2 h]
    rfl

theorem value?_minus (cs : List Char) :
    value? ('-' :: cs) = (digits? cs).map fun n : Nat => -(n : Int) := by
  rw [value?]
  cases digits? cs <;> rfl

theorem value?_eq_some_iff : value? cs = some v ↔ Denotes cs v := by
  have hvalue : ∀ {ds : List Char} {f : Nat → Int}, (digits? ds).map f = some v →
      ∃ n, Digits ds n ∧ f n = v := by
    intro ds f h
    obtain ⟨n, hn, hv⟩ := Option.map_eq_some_iff.1 h
    exact ⟨n, digits?_eq_some_iff.1 hn, hv⟩
  constructor
  · intro h
    fun_cases value? cs with
    | case1 ds =>
        rw [value?_minus] at h
        obtain ⟨n, hn, rfl⟩ := hvalue h
        exact .minus hn
    | case2 ds =>
        obtain ⟨n, hn, rfl⟩ := hvalue h
        exact .plus hn
    | case3 =>
        rw [value?] at h
        · obtain ⟨n, hn, rfl⟩ := hvalue h
          exact .unsigned hn
        all_goals assumption
  · intro h
    cases h with
    | unsigned digits => exact value?_of_digits digits
    | plus digits => exact Option.map_eq_some_iff.2 ⟨_, digits?_eq_some_iff.2 digits, rfl⟩
    | minus digits =>
        rw [value?_minus]
        exact Option.map_eq_some_iff.2 ⟨_, digits?_eq_some_iff.2 digits, rfl⟩

end Values

/-- What is read is the word of the value. -/
theorem read?_eq_some_iff {s : String} {w : Int64} :
    read? s = some w ↔ Denotes s.toList w.toInt := by
  unfold read?
  simp only [Option.bind_eq_some_iff, value?_eq_some_iff, fit?_eq_some_iff]
  constructor
  · rintro ⟨v, hv, rfl⟩
    exact hv
  · intro h
    exact ⟨w.toInt, h, rfl⟩

theorem digits_toDigits (n : Nat) : Digits (Nat.toDigits 10 n) n := by
  have hdigits : ∀ c ∈ Nat.toDigits 10 n, c.isDigit = true :=
    fun c hc => Nat.isDigit_of_mem_toDigits (by decide) (by decide) hc
  have h := digits_ofDigitChars Nat.toDigits_ne_nil hdigits
  rwa [Nat.ofDigitChars_ten_toDigits] at h

/-- A word is written as a decimal of its value. -/
theorem denotes_render (w : Int64) : Denotes (render w).toList w.toInt := by
  unfold render
  split
  next k hk =>
    rw [hk, Nat.toList_repr]
    exact .unsigned (digits_toDigits k)
  next k hk =>
    rw [hk, String.toList_append, Nat.toList_repr, Int.negSucc_eq]
    exact .minus (digits_toDigits (k + 1))

theorem read?_render (w : Int64) : read? (render w) = some w :=
  read?_eq_some_iff.2 (denotes_render w)

end Decimal

/-! ## Decimals as words -/

theorem Text.isBlank_of_isDigit {c : Char} (h : c.isDigit = true) : isBlank c = false := by
  rw [Char.isDigit_iff_toNat] at h
  change 48 ≤ c.toNat ∧ c.toNat ≤ 57 at h
  simp [isBlank, Runs.mem, blankRuns]
  omega

/-- There is no blank in a decimal. -/
theorem Decimal.Denotes.isBlank {cs : List Char} {v : Int} (h : Denotes cs v) :
    ∀ c ∈ cs, Text.isBlank c = false := by
  have hdigits : ∀ {cs n}, Digits cs n → ∀ c ∈ cs, Text.isBlank c = false :=
    fun digits c hc => Text.isBlank_of_isDigit (digits.isDigit c hc)
  cases h with
  | unsigned digits => exact hdigits digits
  | plus digits | minus digits => exact List.forall_mem_cons.2 ⟨rfl, hdigits digits⟩

theorem Decimal.Denotes.ne_nil {cs : List Char} {v : Int} (h : Denotes cs v) : cs ≠ [] := by
  cases h with
  | unsigned digits => exact digits.ne_nil
  | plus | minus => exact List.cons_ne_nil _ _

theorem Text.words_render (w : Int64) : words (Decimal.render w) = [Decimal.render w] := by
  have hdenotes := Decimal.denotes_render w
  have hone : wordsOf (Decimal.render w).toList = [(Decimal.render w).toList] := by
    unfold wordsOf
    rw [List.splitOnP_eq_singleton hdenotes.isBlank]
    simpa using hdenotes.ne_nil
  simp [words, hone]

/-- Integers as they are printed, one on a line. -/
def printedLines : List Int64 → String
  | [] => ""
  | n :: ns => Decimal.render n ++ "\n" ++ printedLines ns

theorem words_printedLines (ns : List Int64) :
    Text.words (printedLines ns) = ns.map Decimal.render := by
  induction ns with
  | nil => rfl
  | cons n ns ih =>
      rw [printedLines, Text.words_append_lineFeed, Text.words_render, ih]
      rfl

/-! ## Calls -/

/-- A write that is not refused is written as a whole. -/
theorem Console.output_write_of_ok {c : Console} {text : String} (h : (c.write text).1 = .ok ()) :
    (c.write text).2.output = c.output ++ Text.bytes text := by
  by_cases hfits : c.sink.fits (Text.bytes text).length = true
  · simp [write, Sink.write, output, hfits]
  · simp [write, Sink.write, hfits] at h

namespace Exec

/-- Print one integer after another, each by a call at a place of its own. -/
def printEach : List (Span × Int64) → Exec Unit
  | [] => pure ()
  | (place, n) :: calls => do
    let _ ← callIntrinsic .println [.int n] place
    printEach calls

/-- Read an integer at one place after another. -/
def readEach (places : List Span) : Exec (List Value) :=
  places.mapM fun place => callIntrinsic .readint [] place

section Calls

variable {m m' : Machine} {place : Span}

/-- What a print writes if it returns. -/
theorem output_of_println {n : Int64} {v : Value}
    (h : callIntrinsic .println [.int n] place m = .ok v m') :
    m'.console.output = m.console.output ++ Text.bytes (Decimal.render n ++ "\n") := by
  have hwrite := write_eq (Decimal.render n ++ "\n") place m
  cases hanswer : (m.console.write (Decimal.render n ++ "\n")).1 with
  | ok u =>
      rw [hanswer] at hwrite
      cases (bind_of_ok hwrite).symm.trans h
      exact Console.output_write_of_ok hanswer
  | error why =>
      rw [hanswer] at hwrite
      cases (bind_of_error hwrite).symm.trans h

/-- Without a limit, a print returns. -/
theorem println_of_unlimited (h : m.console.sink.limit = none) (n : Int64) (place : Span) :
    ∃ m', callIntrinsic .println [.int n] place m = .ok .unit m' ∧
      m'.console.sink.limit = none := by
  have hwrite := write_eq (Decimal.render n ++ "\n") place m
  rw [Console.write_of_unlimited h] at hwrite
  exact ⟨_, bind_of_ok hwrite, h⟩

theorem output_of_printEach {calls : List (Span × Int64)} (h : printEach calls m = .ok () m') :
    m'.console.output = m.console.output ++ Text.bytes (printedLines (calls.map Prod.snd)) := by
  induction calls generalizing m with
  | nil =>
      cases h
      simp [printedLines]
  | cons call calls ih =>
      obtain ⟨place, n⟩ := call
      rw [printEach] at h
      cases hcall : callIntrinsic .println [.int n] place m with
      | ok v m₁ =>
          rw [bind_of_ok hcall] at h
          rw [ih h, output_of_println hcall, List.map_cons, printedLines,
            Text.bytes_append _ (printedLines _), List.append_assoc]
      | error e m₁ => cases (bind_of_error hcall).symm.trans h

theorem printEach_of_unlimited (calls : List (Span × Int64)) (h : m.console.sink.limit = none) :
    ∃ m', printEach calls m = .ok () m' := by
  induction calls generalizing m with
  | nil => exact ⟨m, rfl⟩
  | cons call calls ih =>
      obtain ⟨m₁, hcall, hlimit⟩ := println_of_unlimited h call.2 call.1
      obtain ⟨m', hcalls⟩ := ih hlimit
      exact ⟨m', (bind_of_ok hcall).trans hcalls⟩

/-- A read ends as the first answer that is left has it, and takes that answer. -/
theorem readint_eq (place : Span) (m : Machine) :
    callIntrinsic .readint [] place m =
      match integerOf (m.console.left.headD .ended) with
      | .ok n => .ok (.int n) { m with console := m.console.readWord.2 }
      | .error cause =>
        .error (.fault ⟨cause, place⟩) { m with console := m.console.readWord.2 } := by
  have hread := readInteger_eq place m
  rw [Console.answer_readWord] at hread
  cases hinteger : integerOf (m.console.left.headD .ended) with
  | ok n =>
      rw [hinteger] at hread
      exact bind_of_ok hread
  | error cause =>
      rw [hinteger] at hread
      exact bind_of_error hread

/-- Decimals of words that are next in the input are read as these words. -/
theorem readEach_of_left {ns : List Int64} {rest : List Console.Answer} {places : List Span}
    (hleft : m.console.left = (ns.map Decimal.render).map .word ++ rest)
    (hplaces : places.length = ns.length) :
    ∃ m', readEach places m = .ok (ns.map .int) m' ∧ m'.console.left = rest := by
  induction ns generalizing m places with
  | nil =>
      obtain rfl := List.length_eq_zero_iff.1 hplaces
      exact ⟨m, rfl, hleft⟩
  | cons n ns ih =>
      obtain ⟨place, places, rfl⟩ := List.exists_cons_of_length_eq_add_one hplaces
      have hinteger : integerOf (m.console.left.headD .ended) = .ok n := by
        rw [hleft]
        simp [Console.Answer.word, integerOf, Decimal.read?_render]
      have hread := readint_eq place m
      rw [hinteger] at hread
      have htail : m.console.readWord.2.left = (ns.map Decimal.render).map .word ++ rest := by
        rw [Console.left_readWord, hleft]
        rfl
      obtain ⟨m', hreads, hrest⟩ := ih (m := { m with console := m.console.readWord.2 }) htail
        (Nat.succ.inj hplaces)
      refine ⟨m', ?_, hrest⟩
      unfold readEach at hreads ⊢
      rw [List.mapM_cons, bind_of_ok hread, bind_of_ok hreads]
      rfl

/-- The word that is next in the input is read as the integer that it denotes. -/
theorem readint_of_denotes {tok : String} {rest : List Console.Answer} {w : Int64}
    (hleft : m.console.left = .word tok :: rest) :
    callIntrinsic .readint [] place m = .ok (.int w) { m with console := m.console.readWord.2 } ↔
      Decimal.Denotes tok.toList w.toInt := by
  rw [readint_eq, hleft, ← Decimal.read?_eq_some_iff]
  simp only [List.headD_cons, Console.Answer.word, integerOf]
  cases Decimal.read? tok with
  | none => exact ⟨nofun, nofun⟩
  | some w' => simp

/-- A word that denotes no integer is refused. -/
theorem readint_of_not_denotes {tok : String} {rest : List Console.Answer}
    (hleft : m.console.left = .word tok :: rest)
    (hnone : ∀ w : Int64, ¬ Decimal.Denotes tok.toList w.toInt) :
    callIntrinsic .readint [] place m =
      .error (.fault ⟨.notAnInteger tok, place⟩) { m with console := m.console.readWord.2 } := by
  have hread : Decimal.read? tok = none := by
    rw [Option.eq_none_iff_forall_ne_some]
    intro w hw
    exact hnone w (Decimal.read?_eq_some_iff.1 hw)
  rw [readint_eq, hleft]
  simp [Console.Answer.word, integerOf, hread]

theorem readint_of_ended (hleft : m.console.left = []) :
    callIntrinsic .readint [] place m =
      .error (.fault ⟨.inputEnded, place⟩) { m with console := m.console.readWord.2 } := by
  rw [readint_eq, hleft]
  rfl

end Calls

/-! ## Integers through a console -/

/-- Prints return if there is no limit on the output. What they wrote, if they return, is input
from which the same integers are read in the same order, and then no more. A word that is next
in an input is read as the integer it denotes, if that fits a word of 64 bits, and is refused
otherwise; either way it is taken, and nothing else is. -/
theorem printed_integers_read_back (calls : List (Span × Int64)) :
    (∀ m, m.console.sink.limit = none → ∃ m', printEach calls m = .ok () m') ∧
    (∀ m m', printEach calls m = .ok () m' →
      ∃ written, m'.console.output = m.console.output ++ written ∧
        ∀ (r : Machine) (places : List Span) (last : Span), places.length = calls.length →
          ∃ r' r'' f,
            readEach places { r with console := r.console.setInput written } =
              .ok (calls.map fun call => .int call.2) r' ∧
            callIntrinsic .readint [] last r' = .error (.fault f) r'' ∧
            f.code.label = "E005" ∧ f.message = "readint: end of input") ∧
    (∀ m place tok rest, m.console.left = .word tok :: rest →
      ∃ m', m'.store = m.store ∧ m'.console.sink = m.console.sink ∧ m'.console.left = rest ∧
        (∀ v, (∃ w : Int64, w.toInt = v ∧ callIntrinsic .readint [] place m = .ok (.int w) m') ↔
          Decimal.Denotes tok.toList v ∧ FitsWord v) ∧
        ((∀ v, ¬ (Decimal.Denotes tok.toList v ∧ FitsWord v)) → ∃ f,
          callIntrinsic .readint [] place m = .error (.fault f) m' ∧ f.code.label = "E005")) := by
  refine ⟨fun m hlimit => printEach_of_unlimited calls hlimit, ?_, ?_⟩
  · intro m m' hprints
    refine ⟨_, output_of_printEach hprints, ?_⟩
    intro r places last hplaces
    have hleft : (r.console.setInput (Text.bytes (printedLines (calls.map Prod.snd)))).left =
        ((calls.map Prod.snd).map Decimal.render).map .word ++ [] := by
      rw [Console.left_setInput, Console.answersOfLine_text, words_printedLines, List.append_nil]
    obtain ⟨r', hreads, hended⟩ := readEach_of_left
      (m := { r with console := r.console.setInput _ }) hleft (by rw [hplaces, List.length_map])
    rw [List.map_map] at hreads
    exact ⟨r', _, _, hreads, readint_of_ended hended, rfl, rfl⟩
  · intro m place tok rest hleft
    have hfits : ∀ w : Int64, FitsWord w.toInt :=
      fun w => ⟨Int64.minValue_le_toInt w, Int64.toInt_le w⟩
    refine ⟨{ m with console := m.console.readWord.2 }, rfl, m.console.sink_readWord, ?_, ?_, ?_⟩
    · rw [Console.left_readWord, hleft]
      rfl
    · intro v
      constructor
      · rintro ⟨w, rfl, hread⟩
        exact ⟨(readint_of_denotes hleft).1 hread, hfits w⟩
      · rintro ⟨hdenotes, hv⟩
        obtain ⟨w, rfl, -⟩ := exists_fit?_of_fitsWord hv
        exact ⟨w, rfl, (readint_of_denotes hleft).2 hdenotes⟩
    · intro hnone
      exact ⟨_, readint_of_not_denotes hleft fun w hw => hnone w.toInt ⟨hw, hfits w⟩, rfl⟩

end Exec

end ScopeLang
