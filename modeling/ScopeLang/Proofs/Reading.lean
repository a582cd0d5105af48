-- SUMMARY: What it means that a parser reads a family of texts on a stream, and rules for putting such parsers together.
import ScopeLang.Tree.Parse
import Mathlib.Logic.Basic

/-! # Reading

`Reads` relates a parser to a family of texts, given by what derives them, on
one stream. Such a parser either takes one of the texts and yields its value,
or it refuses the stream at one token. In both cases what it has seen, which is
the tokens it took and the next one, settles the matter: no other text of the
family could begin that way.

A text of the family need not be all there is, so whether it begins that way
depends on what may follow it. The lexemes that may are a parameter, and the
rules ask for them to be told apart from the lexemes with which a text goes on.
-/

namespace ScopeLang

/-- The stream `rest` is what is left of `s` when `taken` has been taken. -/
structure Token.Stream.After (s : Token.Stream) (taken : List Token) (rest : Token.Stream) :
    Prop where
  ahead : s.ahead = taken ++ rest.ahead
  stop : rest.stop = s.stop

/-- The stream ends in an end of input. -/
def Token.Stream.Closed (s : Token.Stream) : Prop :=
  s.stop.lexeme = .endOfInput

/-- The fault is about a token that the grammar does not allow where it stands. -/
structure Fault.Blames (f : Fault) (t : Token) : Prop where
  span : f.span = t.span
  code : f.code = if t.isEnd then .prematureEnd else .unexpectedToken

/-! ## Streams -/

namespace Token.Stream.After

variable {s mid rest : Token.Stream} {u v : List Token}

theorem refl (s : Token.Stream) : s.After [] s :=
  ⟨rfl, rfl⟩

theorem trans (h : s.After u mid) (h' : mid.After v rest) : s.After (u ++ v) rest :=
  ⟨by rw [h.ahead, h'.ahead, List.append_assoc], h'.stop.trans h.stop⟩

theorem closed (h : s.After u rest) (hs : s.Closed) : rest.Closed := by
  rw [Closed, h.stop]
  exact hs

theorem length_le (h : s.After u rest) : rest.ahead.length ≤ s.ahead.length := by
  rw [h.ahead, List.length_append]
  exact Nat.le_add_left _ _

theorem length_lt (h : s.After u rest) (hu : 0 < u.length) :
    rest.ahead.length < s.ahead.length := by
  rw [h.ahead, List.length_append]
  omega

/-- The next token is the first of what is taken, or else the next one after it. -/
theorem peek_isPrefix (h : s.After u rest) : [s.peek] <+: u ++ [rest.peek] := by
  obtain ⟨ahead, stop⟩ := s
  obtain ⟨ahead', stop'⟩ := rest
  obtain ⟨rfl, rfl⟩ := h
  cases u with
  | nil => exact List.prefix_rfl
  | cons t u => exact List.cons_prefix_cons.2 ⟨rfl, List.nil_prefix⟩

/-- Two splits of one stream: one takes no more than the other. -/
theorem compare (h : s.After u mid) (h' : s.After v rest) :
    (∃ w, v = u ++ w ∧ mid.After w rest) ∨ (v ++ [rest.peek] <+: u) := by
  obtain ⟨w, hw, hmid⟩ | ⟨w, hw, hrest⟩ :=
    List.append_eq_append_iff.1 (h.ahead.symm.trans h'.ahead)
  · exact .inl ⟨w, hw, hmid, h'.stop.trans h.stop.symm⟩
  · cases w with
    | nil => exact .inl ⟨[], by simpa using hw.symm, by simpa using hrest.symm,
        h'.stop.trans h.stop.symm⟩
    | cons t w =>
        have hpeek : rest.peek = t := by
          simp [Token.Stream.peek, peekNth, hrest]
        refine .inr ⟨w, ?_⟩
        rw [hw, hpeek, List.append_assoc]
        rfl

/-- A token other than the end of the input is one of those ahead. -/
theorem advance (hs : s.Closed) (h : s.peek.lexeme ≠ .endOfInput) :
    s.After [s.peek] s.advance := by
  obtain ⟨ahead, stop⟩ := s
  cases ahead with
  | nil => exact absurd hs h
  | cons t ts => exact ⟨rfl, rfl⟩

end Token.Stream.After

namespace Grammar

/-! ## Beginnings -/

/-- What comes next, if anything does, is allowed. -/
def Allows (follow : Lexeme → Bool) (r : List Token) : Prop :=
  ∀ t ∈ r.head?, follow t.lexeme = true

/-- The text `u`, with something after it that `follow` allows, begins with `w`. -/
def Fits (follow : Lexeme → Bool) (u w : List Token) : Prop :=
  ∃ r, Allows follow r ∧ w <+: u ++ r

section Beginnings

variable {follow follow' : Lexeme → Bool} {t t' : Token} {u v w r : List Token}

@[simp] theorem allows_nil : Allows follow [] := by
  simp [Allows]

@[simp] theorem allows_cons : Allows follow (t :: r) ↔ follow t.lexeme = true := by
  simp [Allows]

theorem Allows.imp (h : Allows follow' r) (hfollow : ∀ l, follow' l = true → follow l = true) :
    Allows follow r :=
  fun t ht => hfollow _ (h t ht)

theorem Fits.of_isPrefix (h : w <+: u) : Fits follow u w :=
  ⟨[], allows_nil, by simpa using h⟩

theorem Fits.of_allowed (h : follow t.lexeme = true) : Fits follow u (u ++ [t]) :=
  ⟨[t], allows_cons.2 h, List.prefix_rfl⟩

theorem Fits.mono (h : Fits follow u w) (hv : v <+: w) : Fits follow u v := by
  obtain ⟨r, hr, hw⟩ := h
  exact ⟨r, hr, hv.trans hw⟩

/-- What follows a first part is the second part and what follows that. -/
theorem Fits.left (h : Fits follow' (u ++ v) w)
    (hfollow : ∀ r, Allows follow' r → Allows follow (v ++ r)) : Fits follow u w := by
  obtain ⟨r, hr, hw⟩ := h
  exact ⟨v ++ r, hfollow r hr, by simpa using hw⟩

theorem Fits.right (h : Fits follow (u ++ v) (u ++ w)) : Fits follow v w := by
  obtain ⟨r, hr, hw⟩ := h
  refine ⟨r, hr, ?_⟩
  rwa [List.append_assoc, List.prefix_append_right_inj] at hw

@[simp] theorem fits_nil_cons : Fits follow [] (t :: w) ↔ follow t.lexeme = true := by
  constructor
  · rintro ⟨r, hr, q, hq⟩
    rw [List.nil_append] at hq
    subst hq
    simpa using hr
  · intro h
    exact ⟨t :: w, by simpa using h, List.prefix_rfl⟩

@[simp] theorem fits_cons_cons :
    Fits follow (t :: u) (t' :: w) ↔ t' = t ∧ Fits follow u w := by
  constructor
  · rintro ⟨r, hr, hw⟩
    rw [List.cons_append, List.cons_prefix_cons] at hw
    exact ⟨hw.1, r, hr, hw.2⟩
  · rintro ⟨rfl, r, hr, hw⟩
    exact ⟨r, hr, by simpa using hw⟩

end Beginnings

/-! ## Readings -/

/-- On the stream `s` the parser reads one of the texts of a family, or refuses
them all. The family is given by what derives its texts, and by the text and
the value of each. -/
inductive Reads {α β : Type} (follow : Lexeme → Bool) (text : α → List Token) (value : α → β)
    (p : Parser β) (s : Token.Stream) : Prop
  | accepts (a : α) (rest : Token.Stream) (run : p s = .ok (value a, rest))
      (after : s.After (text a) rest)
      (only : ∀ x, Fits follow (text x) (text a ++ [rest.peek]) → x = a)
  | refuses (f : Fault) (taken : List Token) (rest : Token.Stream) (run : p s = .error f)
      (after : s.After taken rest) (blames : f.Blames rest.peek)
      (viable : ∃ x, taken <+: text x)
      (stuck : ∀ x, ¬ Fits follow (text x) (taken ++ [rest.peek]))

namespace Reads

variable {α β γ δ : Type} {follow follow' : Lexeme → Bool} {text : α → List Token}
  {value : α → β} {p q : Parser β} {s : Token.Stream}

theorem bind_ok {f : β → Parser δ} {b : β} {rest : Token.Stream} (run : p s = .ok (b, rest)) :
    (p >>= f) s = f b rest := by
  change (p s >>= fun x => f x.1 x.2) = _
  rw [run]
  rfl

theorem bind_congr {f : β → Parser δ} (h : q s = p s) : (q >>= f) s = (p >>= f) s := by
  change (q s >>= fun x => f x.1 x.2) = (p s >>= fun x => f x.1 x.2)
  rw [h]

theorem peek_bind (f : Token → Parser δ) : (Parser.peek >>= f) s = f s.peek s := rfl

theorem bind_error {f : β → Parser δ} {e : Fault} (run : p s = .error e) :
    (p >>= f) s = .error e := by
  change (p s >>= fun x => f x.1 x.2) = _
  rw [run]
  rfl

/-- Only what the parser does on the stream counts. -/
theorem congr (h : Reads follow text value p s) (hpq : q s = p s) : Reads follow text value q s := by
  cases h with
  | accepts a rest run after only => exact .accepts a rest (hpq.trans run) after only
  | refuses f taken rest run after blames viable stuck =>
      exact .refuses f taken rest (hpq.trans run) after blames viable stuck

/-- Fewer lexemes may follow. -/
theorem weaken (h : Reads follow text value p s) (hfollow : ∀ l, follow' l = true → follow l = true) :
    Reads follow' text value p s := by
  have hfits : ∀ {u w}, Fits follow' u w → Fits follow u w := by
    rintro u w ⟨r, hr, hw⟩
    exact ⟨r, hr.imp hfollow, hw⟩
  cases h with
  | accepts a rest run after only =>
      exact .accepts a rest run after fun x hx => only x (hfits hx)
  | refuses f taken rest run after blames viable stuck =>
      exact .refuses f taken rest run after blames viable fun x hx => stuck x (hfits hx)

/-- One text after another. What may follow the first is what the second starts
with, or what may follow the second. -/
theorem bind [Nonempty γ] {text' : γ → List Token} (value' : α → γ → δ) {f : β → Parser δ}
    (hp : Reads follow text value p s)
    (hf : ∀ a rest, s.After (text a) rest → Reads follow' text' (value' a) (f (value a)) rest)
    (hfollow : ∀ c r, Allows follow' r → Allows follow (text' c ++ r)) :
    Reads follow' (fun x : α × γ => text x.1 ++ text' x.2) (fun x => value' x.1 x.2)
      (p >>= f) s := by
  cases hp with
  | refuses e taken rest run after blames viable stuck =>
      refine .refuses e taken rest (bind_error run) after blames ?_ ?_
      · obtain ⟨a, ha⟩ := viable
        obtain ⟨c⟩ := ‹Nonempty γ›
        exact ⟨(a, c), ha.trans (List.prefix_append _ _)⟩
      · rintro ⟨a, c⟩ hfits
        exact stuck a (hfits.left (hfollow c))
  | accepts a mid run after only =>
      -- What the second parser sees contains the token that settled the first.
      have hfirst : ∀ {w rest x y}, mid.After w rest →
          Fits follow' (text x ++ text' y) (text a ++ (w ++ [rest.peek])) → x = a := by
        intro w rest x y hmid hfits
        refine only x ((hfits.left (hfollow y)).mono ?_)
        exact (List.prefix_append_right_inj _).2 hmid.peek_isPrefix
      cases hf a mid after with
      | accepts c rest run' after' only' =>
          refine .accepts (a, c) rest ((bind_ok run).trans run') (after.trans after') ?_
          rintro ⟨x, y⟩ hfits
          rw [List.append_assoc] at hfits
          obtain rfl : x = a := hfirst after' hfits
          obtain rfl : y = c := only' y hfits.right
          rfl
      | refuses e taken rest run' after' blames viable stuck =>
          refine .refuses e (text a ++ taken) rest ((bind_ok run).trans run') (after.trans after')
            blames ?_ ?_
          · obtain ⟨c, hc⟩ := viable
            exact ⟨(a, c), (List.prefix_append_right_inj _).2 hc⟩
          · rintro ⟨x, y⟩ hfits
            rw [List.append_assoc] at hfits
            obtain rfl : x = a := hfirst after' hfits
            exact stuck y hfits.right

/-- One text after another, where anything may follow the first. -/
theorem bindAny [Nonempty γ] {text' : γ → List Token} (value' : α → γ → δ) {f : β → Parser δ}
    (hp : Reads (fun _ => true) text value p s)
    (hf : ∀ a rest, s.After (text a) rest → Reads follow' text' (value' a) (f (value a)) rest) :
    Reads follow' (fun x : α × γ => text x.1 ++ text' x.2) (fun x => value' x.1 x.2)
      (p >>= f) s :=
  hp.bind value' hf fun _ _ _ _ _ => rfl

/-- The value may be passed on. -/
theorem andThen {f : β → Parser δ} {value' : α → δ} (hp : Reads follow text value p s)
    (hf : ∀ a rest, s.After (text a) rest → f (value a) rest = .ok (value' a, rest)) :
    Reads follow text value' (p >>= f) s := by
  cases hp with
  | accepts a rest run after only =>
      exact .accepts a rest ((bind_ok run).trans (hf a rest after)) after only
  | refuses e taken rest run after blames viable stuck =>
      exact .refuses e taken rest (bind_error run) after blames viable stuck

/-- The same texts derived in another way. -/
theorem map {text' : γ → List Token} {value' : γ → β} (h : Reads follow text value p s)
    (g : α → γ) (htext : ∀ a, text' (g a) = text a) (hvalue : ∀ a, value' (g a) = value a)
    (honto : ∀ c, ∃ a, g a = c) : Reads follow text' value' p s := by
  cases h with
  | accepts a rest run after only =>
      refine .accepts (g a) rest (by rw [hvalue, run]) (by rwa [htext]) ?_
      intro c hc
      obtain ⟨x, rfl⟩ := honto c
      rw [htext, htext] at hc
      rw [only x hc]
  | refuses e taken rest run after blames viable stuck =>
      refine .refuses e taken rest run after blames ?_ ?_
      · obtain ⟨a, ha⟩ := viable
        exact ⟨g a, by rwa [htext]⟩
      · intro c hc
        obtain ⟨x, rfl⟩ := honto c
        rw [htext] at hc
        exact stuck x hc

/-- One alternative among several, settled by the tokens `u` and the one after
them. A parser that reads a text beginning with `u` sees at least these. -/
theorem alternative {text' : γ → List Token} {value' : γ → β} {u : List Token}
    {mid : Token.Stream} (h : Reads follow text value p s) (g : α → γ)
    (htext : ∀ a, text' (g a) = text a) (hvalue : ∀ a, value' (g a) = value a)
    (x₀ : α) (hx₀ : u <+: text x₀) (hmid : s.After u mid)
    (honto : ∀ c w, Fits follow (text' c) (u ++ mid.peek :: w) → ∃ a, g a = c) :
    Reads follow text' value' p s := by
  -- A reading that saw less than `u` would have to be that of `x₀`.
  have hseen : ∀ {v rest}, s.After v rest →
      (Fits follow (text x₀) (v ++ [rest.peek]) → u <+: v) →
      ∀ c, Fits follow (text' c) (v ++ [rest.peek]) → ∃ a, g a = c := by
    intro v rest hrest hx c hc
    obtain ⟨w, rfl, hw⟩ | hshort := hmid.compare hrest
    · rw [List.append_assoc] at hc
      obtain ⟨r, hr⟩ := hw.peek_isPrefix
      rw [← hr] at hc
      exact honto c r hc
    · have hlong := (hx (.of_isPrefix (hshort.trans hx₀))).length_le
      have hlt := hshort.length_le
      rw [List.length_append, List.length_singleton] at hlt
      omega
  cases h with
  | accepts a rest run after only =>
      refine .accepts (g a) rest (by rw [hvalue, run]) (by rwa [htext]) ?_
      intro c hc
      rw [htext] at hc
      obtain ⟨x, rfl⟩ := hseen after (fun hx => only x₀ hx ▸ hx₀) c hc
      rw [htext] at hc
      rw [only x hc]
  | refuses e taken rest run after blames viable stuck =>
      refine .refuses e taken rest run after blames ?_ ?_
      · obtain ⟨a, ha⟩ := viable
        exact ⟨g a, by rwa [htext]⟩
      · intro c hc
        obtain ⟨x, rfl⟩ := hseen after (fun hx => absurd hx (stuck x₀)) c hc
        rw [htext] at hc
        exact stuck x hc

/-- One alternative among several, settled by the next token. -/
theorem alternativeByPeek {text' : γ → List Token} {value' : γ → β}
    (h : Reads follow text value p s) (g : α → γ) (htext : ∀ a, text' (g a) = text a)
    (hvalue : ∀ a, value' (g a) = value a)
    (honto : ∀ c w, Fits follow (text' c) (s.peek :: w) → ∃ a, g a = c) :
    Reads follow text' value' p s := by
  have hx : ∃ x : α, [] <+: text x := by
    cases h with
    | accepts a => exact ⟨a, List.nil_prefix⟩
    | refuses _ _ _ _ _ _ viable => exact ⟨viable.choose, List.nil_prefix⟩
  obtain ⟨x₀, hx₀⟩ := hx
  exact h.alternative g htext hvalue x₀ hx₀ (.refl s) honto

/-! ### Single tokens -/

/-- Nothing fits the next token. -/
theorem refuse [Nonempty α] (wanted : Wanted) (h : ∀ x, ¬ Fits follow (text x) [s.peek]) :
    Reads follow text value (Parser.refuse wanted) s := by
  have hblames : ∃ f : Fault, (Parser.refuse wanted : Parser β) s = .error f ∧ f.Blames s.peek := by
    by_cases hend : s.peek.isEnd = true
    · refine ⟨⟨.prematureEnd wanted, s.peek.span⟩, ?_, rfl, by simp [hend]; rfl⟩
      change (if s.peek.isEnd = true then _ else _ : Parser β) s = _
      rw [if_pos hend]
      rfl
    · refine ⟨⟨.unexpectedToken s.peek.lexeme wanted, s.peek.span⟩, ?_, rfl, by simp [hend]; rfl⟩
      change (if s.peek.isEnd = true then _ else _ : Parser β) s = _
      rw [if_neg hend]
      rfl
  obtain ⟨f, hrun, hf⟩ := hblames
  obtain ⟨x⟩ := ‹Nonempty α›
  exact .refuses f [] s hrun (.refl s) hf ⟨x, List.nil_prefix⟩ h

/-- A token that comes next, whatever may follow it. -/
theorem token (hs : s.Closed) {a : α} {t : Token} (run : p s = .ok (value a, s.advance))
    (hpeek : s.peek = t) (hend : t.lexeme ≠ .endOfInput) (ha : text a = [t])
    (honly : ∀ x w, Fits follow (text x) (t :: w) → x = a) : Reads follow text value p s := by
  subst hpeek
  refine .accepts a s.advance run ?_ ?_
  · rw [ha]
    exact .advance hs hend
  · intro x hx
    rw [ha] at hx
    exact honly x _ hx

theorem next_eq_expect {l : Lexeme} (h : s.peek.lexeme = l) :
    Parser.next s = Parser.expect l s := by
  change _ = (if (s.peek.lexeme == l) = true then Parser.next else _ : Parser Token) s
  rw [if_pos (beq_iff_eq.2 h)]

/-- A fixed lexeme. -/
theorem expect {l : Lexeme} (hs : s.Closed) (hl : l ≠ .endOfInput) :
    Reads follow (fun place : Span => [⟨l, place⟩]) (fun place => (⟨l, place⟩ : Token))
      (Parser.expect l) s := by
  by_cases h : s.peek.lexeme = l
  · have hpeek : s.peek = ⟨l, s.peek.span⟩ := by rw [← h]
    refine token hs (a := s.peek.span) ?_ hpeek hl rfl ?_
    · rw [← next_eq_expect h, ← hpeek]
      rfl
    · intro place w hfits
      rw [fits_cons_cons] at hfits
      exact (congrArg Token.span hfits.1).symm
  · refine congr (refuse (.lexeme l) ?_) ?_
    · intro place hfits
      rw [fits_cons_cons] at hfits
      exact h (congrArg Token.lexeme hfits.1)
    · change (if (s.peek.lexeme == l) = true then _ else _ : Parser Token) s = _
      rw [if_neg (by simpa using h)]

/-- A name. -/
theorem expectName (hs : s.Closed) :
    Reads follow (fun x : String × Span => [⟨.name x.1, x.2⟩]) (fun x => x)
      Parser.expectName s := by
  by_cases h : ∃ x, s.peek.lexeme = .name x
  · obtain ⟨spelling, h⟩ := h
    have hpeek : s.peek = ⟨.name spelling, s.peek.span⟩ := by rw [← h]
    refine token hs (a := (spelling, s.peek.span)) ?_ hpeek (by simp) rfl ?_
    · rw [Parser.expectName, peek_bind, h]
      rfl
    · rintro ⟨x, place⟩ w hfits
      rw [fits_cons_cons] at hfits
      cases hfits.1
      rfl
  · refine congr (refuse .name ?_) ?_
    · rintro ⟨x, place⟩ hfits
      rw [fits_cons_cons] at hfits
      exact h ⟨x, congrArg Token.lexeme hfits.1⟩
    · rw [Parser.expectName, peek_bind]
      cases hl : s.peek.lexeme with
      | name x => exact absurd ⟨x, hl⟩ h
      | _ => rfl

/-- A text and the fixed lexeme that ends it. -/
theorem thenExpect {l : Lexeme} (hp : Reads follow text value p s) (hs : s.Closed)
    (hl : l ≠ .endOfInput) (hfollow : follow l = true) (k : β → δ) :
    Reads follow' (fun x : α × Span => text x.1 ++ [⟨l, x.2⟩]) (fun x => k (value x.1))
      (p >>= fun b => Parser.expect l >>= fun _ => Pure.pure (k b)) s := by
  have hend : ∀ a rest, s.After (text a) rest →
      Reads follow' (fun place : Span => [⟨l, place⟩]) (fun _ => k (value a))
        (Parser.expect l >>= fun _ => Pure.pure (k (value a))) rest :=
    fun a rest hrest => (expect (hrest.closed hs) hl).andThen fun _ _ _ => rfl
  refine bind (f := fun b => Parser.expect l >>= fun _ => Pure.pure (k b))
    (fun a _ => k (value a)) hp hend ?_
  intro place r _
  exact allows_cons.2 hfollow

section Then

variable [Nonempty γ] {text' : γ → List Token}

/-- A fixed lexeme and then more. -/
theorem expectThen {l : Lexeme} (value' : Span → γ → δ) (hs : s.Closed) (hl : l ≠ .endOfInput)
    {f : Token → Parser δ}
    (hf : ∀ place rest, s.After [⟨l, place⟩] rest →
      Reads follow text' (value' place) (f ⟨l, place⟩) rest) :
    Reads follow (fun x : Span × γ => ⟨l, x.1⟩ :: text' x.2) (fun x => value' x.1 x.2)
      (Parser.expect l >>= f) s :=
  bindAny value' (expect hs hl) hf

/-- A name and then more. -/
theorem expectNameThen (value' : String × Span → γ → δ) (hs : s.Closed)
    {f : String × Span → Parser δ}
    (hf : ∀ x rest, s.After [⟨.name x.1, x.2⟩] rest → Reads follow text' (value' x) (f x) rest) :
    Reads follow (fun x : (String × Span) × γ => ⟨.name x.1.1, x.1.2⟩ :: text' x.2)
      (fun x => value' x.1 x.2) (Parser.expectName >>= f) s :=
  bindAny value' (expectName hs) hf

end Then

end Reads

end Grammar

end ScopeLang
