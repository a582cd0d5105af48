-- SUMMARY: A run depends only on the words of its input that it asks for.
import ScopeLang.Proofs.OutputLimit

/-! # Input on demand

The console takes its input line by line, ahead of what the run asks for. What a
run is answered is nevertheless only a matter of the words of the input, one
after another, and of the end behind them: where lines end and how words are set
apart does not show, and a word that is not asked for is never seen.

To compare runs on two inputs, both of them are escorted by the same run, on a
console that is rationed: it answers as often as the run asks for words, and
fails after that.
-/

namespace ScopeLang

/-! ## Words of an input -/

theorem linesOf_of_not_mem {line : List UInt8} (h : Span.lineFeed ∉ line) (hne : line ≠ []) :
    linesOf line = [line] := by
  induction line with
  | nil => exact absurd rfl hne
  | cons b line ih =>
      have hb : b ≠ Span.lineFeed := fun heq => h (heq ▸ List.mem_cons_self)
      rw [linesOf, if_neg hb]
      cases line with
      | nil => rfl
      | cons b' line =>
          have hline : Span.lineFeed ∉ b' :: line := fun hmem => h (List.mem_cons_of_mem b hmem)
          rw [ih hline (List.cons_ne_nil _ _)]

/-- A line is cut off behind its line feed. -/
theorem linesOf_append_lineFeed {line : List UInt8} (h : Span.lineFeed ∉ line)
    (rest : List UInt8) :
    linesOf (line ++ Span.lineFeed :: rest) = (line ++ [Span.lineFeed]) :: linesOf rest := by
  induction line with
  | nil => rw [List.nil_append, linesOf, if_pos rfl, List.nil_append]
  | cons b line ih =>
      have hb : b ≠ Span.lineFeed := fun heq => h (heq ▸ List.mem_cons_self)
      have hline : Span.lineFeed ∉ line := fun hmem => h (List.mem_cons_of_mem b hmem)
      rw [List.cons_append, linesOf, if_neg hb, ih hline]
      rfl

/-- Words on the two sides of a line feed do not touch. -/
theorem Text.words_append_lineFeed (s t : String) :
    words (s ++ "\n" ++ t) = words s ++ words t := by
  have hchars : (s ++ "\n" ++ t).toList = s.toList ++ '\n' :: t.toList := by
    rw [String.toList_append, String.toList_append, List.append_assoc]
    rfl
  rw [words, hchars, wordsOf_append_blank _ _ (by decide), List.map_append]
  rfl

/-- The lines of a text are texts, and its words are the words of its lines. -/
theorem exists_lines (s : String) :
    ∃ lines : List String, linesOf (Text.bytes s) = lines.map Text.bytes ∧
      lines.flatMap Text.words = Text.words s := by
  -- On the length of the text: the first line is cut off.
  generalize hlength : (Text.bytes s).length = length
  induction length using Nat.strongRecOn generalizing s with
  | ind length ih =>
      by_cases hmem : Span.lineFeed ∈ Text.bytes s
      · obtain ⟨line, rest, hbytes, hline⟩ := List.eq_append_cons_of_mem hmem
        obtain ⟨t, u, rfl, rfl⟩ := Text.exists_cut (by decide) hbytes
        have hs : s = t ++ "\n" ++ u := by
          apply Text.bytes_injective
          rw [hbytes, Text.bytes_append, Text.bytes_append, List.append_assoc]
          rfl
        have hshorter : (Text.bytes u).length < length := by
          rw [← hlength, hbytes, List.length_append, List.length_cons]
          omega
        obtain ⟨lines, hlines, hwords⟩ := ih _ hshorter u rfl
        have hfirst : Text.words (t ++ "\n") = Text.words t := by
          have hend := Text.words_append_lineFeed t ""
          rw [String.append_empty] at hend
          exact hend.trans (List.append_nil _)
        refine ⟨(t ++ "\n") :: lines, ?_, ?_⟩
        · rw [hbytes, linesOf_append_lineFeed hline, hlines, List.map_cons, Text.bytes_append]
          rfl
        · rw [List.flatMap_cons, hwords, hfirst, hs, Text.words_append_lineFeed]
      · by_cases hempty : Text.bytes s = []
        · obtain rfl : s = "" := Text.bytes_injective hempty
          exact ⟨[], rfl, rfl⟩
        · exact ⟨[s], linesOf_of_not_mem hmem hempty, List.flatMap_singleton Text.words s⟩

namespace Console

/-- These are the words that are left, and no line is a failure to read. -/
def Offers (c : Console) (words : List String) : Prop :=
  ∃ lines : List String, c.lines = lines.map Text.bytes ∧
    words = c.pending ++ lines.flatMap Text.words

theorem offers_ofInput (input : String) (limit : Option Nat) :
    (ofInput (Text.bytes input) limit).Offers (Text.words input) := by
  obtain ⟨lines, hlines, hwords⟩ := exists_lines input
  exact ⟨lines, hlines, hwords.symm⟩

theorem Offers.write {c : Console} {words : List String} (h : c.Offers words) (text : String) :
    (c.write text).2.Offers words :=
  h

/-- Lines that are texts are taken until one has a word. -/
theorem takeWord_map_bytes (lines : List String) :
    (lines.flatMap Text.words = [] ∧ takeWord (lines.map Text.bytes) = (.ok none, [], [])) ∨
    ∃ (word : String) (rest later : List String), takeWord (lines.map Text.bytes) =
        (.ok (some word), rest, later.map Text.bytes) ∧
      lines.flatMap Text.words = word :: rest ++ later.flatMap Text.words := by
  induction lines with
  | nil => exact .inl ⟨rfl, rfl⟩
  | cons line lines ih =>
      rw [List.map_cons, takeWord, Text.ofBytes?_bytes, List.flatMap_cons]
      dsimp only
      cases hwords : Text.words line with
      | nil => exact ih
      | cons word rest => exact .inr ⟨word, rest, lines, rfl, rfl⟩

/-- The answer is the first word that is left, or that there is none. -/
theorem Offers.readWord {c : Console} {words : List String} (h : c.Offers words) :
    c.readWord.1 = .ok words.head? ∧ c.readWord.2.Offers words.tail := by
  obtain ⟨lines, hlines, hwords⟩ := h
  unfold Console.readWord
  cases hpending : c.pending with
  | cons word rest =>
      rw [hpending] at hwords
      subst hwords
      exact ⟨rfl, lines, hlines, rfl⟩
  | nil =>
      rw [hpending, List.nil_append] at hwords
      obtain ⟨hnone, htake⟩ | ⟨word, rest, later, htake, hsome⟩ := takeWord_map_bytes lines
      · rw [hwords, hnone]
        simp only [hlines, htake]
        exact ⟨rfl, [], rfl, rfl⟩
      · rw [hwords, hsome]
        simp only [hlines, htake]
        exact ⟨rfl, later, rfl, rfl⟩

end Console

/-! ## Rationed consoles -/

/-- A line that is no text. -/
def Console.unreadable : List UInt8 := [255]

/-- The same console with other input: the first `left` of the words given. If there are so
many, the console fails after them, and otherwise the input ends. -/
def Console.rationed (c : Console) (words : List String) (left : Nat) : Console :=
  { c with
    pending := words.take left
    lines := if left ≤ words.length then [unreadable] else [] }

/-- Only the answers that are given matter. -/
theorem Console.rationed_congr (c : Console) {words words' : List String} {left : Nat}
    (h : ∀ i < left, words[i]? = words'[i]?) : c.rationed words left = c.rationed words' left := by
  have htake : words.take left = words'.take left := by
    apply List.ext_getElem?
    intro i
    rw [List.getElem?_take, List.getElem?_take]
    split
    · exact h i ‹_›
    · rfl
  have hlength : left ≤ words.length ↔ left ≤ words'.length := by
    have hcounts := congrArg List.length htake
    rw [List.length_take, List.length_take] at hcounts
    omega
  simp only [rationed, htake, hlength]

/-- The first console is rationed, so that it fails when the run asks for more than `most`
words, and offers what the second one does until then. -/
def Rationed (most : Nat) (r c : Console) : Prop :=
  ∃ words left, c.Offers words ∧ r = c.rationed words left ∧
    (left ≤ words.length → left + c.requests = most)

namespace Rationed

variable {most : Nat} {r c : Console}

theorem write (h : Rationed most r c) (text : String) :
    (r.write text).1 = (c.write text).1 ∧ Rationed most (r.write text).2 (c.write text).2 := by
  obtain ⟨words, left, hoffers, rfl, hleft⟩ := h
  exact ⟨rfl, words, left, hoffers.write text, rfl, hleft⟩

/-- Both consoles give the same answer, unless the rationed one fails. -/
theorem readWord (h : Rationed most r c) :
    (r.readWord.1 = c.readWord.1 ∧ Rationed most r.readWord.2 c.readWord.2) ∨
    (r.readWord.1 = .error .notText ∧ r.requests = most ∧ c.requests = most) := by
  obtain ⟨words, left, hoffers, rfl, hleft⟩ := h
  obtain ⟨hanswer, hafter⟩ := hoffers.readWord
  have hsink := c.sink_readWord
  have hrequests := c.requests_readWord
  cases left with
  | zero =>
      have hmost : c.requests = most := by simpa using hleft (Nat.zero_le _)
      exact .inr ⟨rfl, hmost, hmost⟩
  | succ left =>
      cases words with
      | nil =>
          refine .inl ⟨hanswer.symm, [], left + 1, hafter, ?_, nofun⟩
          simp only [Console.rationed, hsink, hrequests]
          rfl
      | cons word words =>
          refine .inl ⟨hanswer.symm, words, left, hafter, ?_, ?_⟩
          · simp only [Console.rationed, hsink, hrequests, List.length_cons,
              Nat.add_le_add_iff_right]
            rfl
          · intro hle
            have hmost := hleft (Nat.succ_le_succ hle)
            omega

end Rationed

/-! ## Runs on a ration -/

/-- A run, escorted by one on a rationed console. -/
def rationing (most : Nat) : Escort Unit where
  watch _ := .never
  admits _ _ := True
  home _ := True
  fresh _ := True
  kept _ := True
  abreast cs c := Rationed most (cs ()) c
  cutOff _ ms m := most < (ms ()).console.requests ∧ most < m.console.requests

/-- A read, which may be one that the rationed console refuses. -/
theorem rationing_readInteger {most : Nat} {ms : Unit → Machine} {m : Machine}
    (hm : (rationing most).Together ms m) (span : Span) :
    (rationing most).Ends (fun _ => True) (fun _ => Exec.readInteger span)
      (Exec.readInteger span) ms m := by
  have hconsoles : Rationed most (ms ()).console m.console := hm.consoles
  obtain ⟨hanswer, hafter⟩ | ⟨hfails, hration, hrequests⟩ := hconsoles.readWord
  · exact .readInteger hm (fun _ => hanswer) hafter
  · refine .cut (fun _ => .fault ⟨.inputFailed .notText, span⟩)
      (fun i => { ms i with console := (ms i).console.readWord.2 }) (fun i => ?_) ⟨?_, ?_⟩
    · rw [Exec.readInteger_eq, hfails]
      rfl
    · change most < (ms ()).console.readWord.2.requests
      rw [Console.requests_readWord, hration]
      exact Nat.lt_succ_self most
    · have hfinal : ((Exec.readInteger span).final m).console = m.console.readWord.2 := by
        unfold Exec.final
        rw [Exec.readInteger_eq]
        cases Exec.integerOf m.console.readWord.1 <;> rfl
      rw [hfinal, Console.requests_readWord, hrequests]
      exact Nat.lt_succ_self most

theorem lawful_rationing (most : Nat) : (rationing most).Lawful where
  later hcut honward := ⟨hcut.1, Nat.lt_of_lt_of_le hcut.2 honward.requests⟩
  inside _ _ _ := trivial
  argument _ _ _ _ := trivial
  home _ := trivial
  fresh _ _ := trivial
  newScope := .newScope fun _ _ => ⟨trivial, trivial⟩
  bindAll _ _ _ := trivial
  close _ _ _ _ _ := trivial
  declare _ _ _ _ _ _ _ := .silent (fun _ => rfl) trivial
  assign _ _ _ _ _ _ := .silent (fun _ => rfl) trivial
  write text span := by
    apply Escort.Relates.write_of_silent (fun _ _ _ _ => rfl)
    intro cs c hcs
    obtain ⟨hanswer, hafter⟩ := hcs.write text
    exact ⟨fun _ => hanswer, hafter⟩
  readInteger span := ⟨Exec.onward_readInteger span, fun _ _ _ hm => rationing_readInteger hm span⟩

/-- The runs end in the same way, have written the same and have asked for as many words. -/
structure Outcome.Agrees (o o' : Outcome) : Prop where
  ending : o.ending = o'.ending
  output : o.console.output = o'.console.output
  requests : o.console.requests = o'.console.requests

theorem Outcome.Agrees.symm {o o' : Outcome} (h : o.Agrees o') : o'.Agrees o :=
  ⟨h.ending.symm, h.output.symm, h.requests.symm⟩

theorem Outcome.Agrees.trans {o o' o'' : Outcome} (h : o.Agrees o') (h' : o'.Agrees o'') :
    o.Agrees o'' :=
  ⟨h.ending.trans h'.ending, h.output.trans h'.output, h.requests.trans h'.requests⟩

theorem Rationed.agrees {most : Nat} {r c : Console} (h : Rationed most r c) {o : Ending} :
    Outcome.Agrees ⟨o, r⟩ ⟨o, c⟩ := by
  obtain ⟨words, left, -, rfl, -⟩ := h
  exact ⟨rfl, rfl, rfl⟩

/-- A program that runs on a ration does as it would, unless it asks for too many words. -/
theorem Program.run_rationed (p : Program) (fuel : Nat) {most : Nat} {r c : Console}
    (h : Rationed most r c) :
    (p.run fuel r).Agrees (p.run fuel c) ∨
      (most < (p.run fuel r).console.requests ∧ most < (p.run fuel c).console.requests) := by
  have hvalues : ∀ v, (rationing most).Holds v := Escort.holds_of_home _ fun _ => trivial
  have htogether : (rationing most).Together (fun _ => .initial r) (.initial c) :=
    ⟨fun _ => rfl, fun _ _ v _ => hvalues v, trivial, h⟩
  have hescort : ∀ {result}, evalWatched .never fuel p.root Store.globalId (.initial r) = result →
      execute fuel p.root (.initial r) = result := by
    intro result hresult
    rw [evalWatched_never] at hresult
    exact hresult
  cases ((lawful_rationing most).eval fuel p.root Store.globalId).ends trivial _ _ htogether with
  | returns v ms' m' escorts run together holds =>
      rw [run_of_ok run, run_of_ok (hescort (escorts ()))]
      exact .inl together.consoles.agrees
  | stops e ms' m' escorts run together =>
      rw [run_of_error run, run_of_error (hescort (escorts ()))]
      exact .inl together.consoles.agrees
  | cut es ms' escorts cutOff =>
      rw [run_of_error (hescort (escorts ())), console_run p fuel c]
      exact .inr cutOff

theorem rationed_ofInput (input : String) (limit : Option Nat) (most : Nat) :
    Rationed most ((Console.ofInput (Text.bytes input) limit).rationed (Text.words input) most)
      (.ofInput (Text.bytes input) limit) :=
  ⟨Text.words input, most, Console.offers_ofInput input limit, rfl, fun _ => rfl⟩

/-- A program that has been run on one input runs alike on another one that has the same words,
as far as they were asked for. -/
theorem Program.run_agrees (p : Program) (fuel : Nat) (limit : Option Nat) {input other : String}
    (hagree : ∀ i < (p.run fuel (.ofInput (Text.bytes input) limit)).console.requests,
      (Text.words input)[i]? = (Text.words other)[i]?) :
    (p.run fuel (.ofInput (Text.bytes other) limit)).Agrees
      (p.run fuel (.ofInput (Text.bytes input) limit)) := by
  generalize hmost : (p.run fuel (.ofInput (Text.bytes input) limit)).console.requests = most
    at hagree
  -- The ration that suffices for the one input is the same for the other one.
  have hsame : (Console.ofInput (Text.bytes input) limit).rationed (Text.words input) most =
      (Console.ofInput (Text.bytes other) limit).rationed (Text.words other) most :=
    (Console.ofInput (Text.bytes input) limit).rationed_congr hagree
  have hinput := p.run_rationed fuel (rationed_ofInput input limit most)
  have hother := p.run_rationed fuel (rationed_ofInput other limit most)
  rw [hsame] at hinput
  obtain hinput | ⟨-, hbeyond⟩ := hinput
  · obtain hother | ⟨hbeyond, -⟩ := hother
    · exact hother.symm.trans hinput
    · rw [hinput.requests, hmost] at hbeyond
      exact absurd hbeyond (Nat.lt_irrefl most)
  · rw [hmost] at hbeyond
    exact absurd hbeyond (Nat.lt_irrefl most)

/-- A run depends only on the words of its input that it asks for. If another input has the same
words up to there, and ends there if the first one does, then the run on it ends with the same
value or the same fault, writes the same output and asks for as many words. How the words are
set apart, and what comes after them, does not matter. -/
theorem unread_input_unobservable (source input other : String) (limit : Option Nat) (fuel : Nat)
    (hagree : ∀ i < (run fuel source (.ofInput (Text.bytes input) limit)).console.requests,
      (Text.words input)[i]? = (Text.words other)[i]?) :
    (run fuel source (.ofInput (Text.bytes other) limit)).Agrees
      (run fuel source (.ofInput (Text.bytes input) limit)) := by
  unfold run at hagree ⊢
  cases hcompile : compile source with
  | error f => exact ⟨rfl, rfl, rfl⟩
  | ok p =>
      rw [hcompile] at hagree
      exact p.run_agrees fuel limit hagree

/-- The third word is not asked for. The first two may stand on one line or on two. -/
theorem unread_input_unobservable_sum :
    (∀ i < (run 20 "println(readint() + readint());"
        (.ofInput (Text.bytes "3 4\n") none)).console.requests,
      (Text.words "3 4\n")[i]? = (Text.words "\n\t3\n\n 4 x")[i]?) ∧
    (run 20 "println(readint() + readint());"
        (.ofInput (Text.bytes "\n\t3\n\n 4 x") none)).Agrees
      (run 20 "println(readint() + readint());" (.ofInput (Text.bytes "3 4\n") none)) := by
  have hagree : ∀ i < (run 20 "println(readint() + readint());"
        (.ofInput (Text.bytes "3 4\n") none)).console.requests,
      (Text.words "3 4\n")[i]? = (Text.words "\n\t3\n\n 4 x")[i]? := by
    decide +kernel
  exact ⟨hagree, unread_input_unobservable _ _ _ _ _ hagree⟩

end ScopeLang
