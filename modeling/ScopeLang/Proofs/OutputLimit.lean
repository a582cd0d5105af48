-- SUMMARY: A run with a limit on its output is the run without it, up to the write that crosses it.
import ScopeLang.Proofs.Escorts
import ScopeLang.Proofs.FaultPlaces

/-! # Limited output

A run with a limit on its output does what the run without it does, until a write
does not fit any more. Of that write the part that fits is kept, and the run
stops there, at the place of the call that wrote. The run without the limit goes
on, but nothing in it takes back what was written. So the output of the limited
run is the beginning of the whole output.

The run without the limit is escorted by the limited one, and by runs that stop
before the first write that crosses the limit.
-/

namespace ScopeLang

/-! ## Consoles with a limit -/

namespace Console

variable {c : Console} {limit : Nat} {text : String}

/-- The same console with a limit on its output. -/
def limitedTo (c : Console) (limit : Nat) : Console :=
  { c with sink := { c.sink with limit := some limit } }

/-- Without a limit, every text is written. -/
theorem write_of_unlimited (h : c.sink.limit = none) :
    c.write text = (.ok (), { c with sink :=
      { c.sink with written := c.sink.written.appendList (Text.bytes text) } }) := by
  simp [write, Sink.write, Sink.fits, h]

theorem output_write_of_unlimited (h : c.sink.limit = none) :
    (c.write text).2.output = c.output ++ Text.bytes text := by
  rw [write_of_unlimited h]
  simp [output]

/-- A text that fits is written as without a limit. -/
theorem write_limitedTo_of_fits (h : c.sink.limit = none)
    (hfits : c.output.length + (Text.bytes text).length ≤ limit) :
    (c.limitedTo limit).write text = (.ok (), (c.write text).2.limitedTo limit) := by
  have hsize : c.sink.written.size + (Text.bytes text).length ≤ limit := by
    simpa [output] using hfits
  rw [write_of_unlimited h]
  simp [write, limitedTo, Sink.write, Sink.fits, hsize]

/-- Of a text that does not fit, the part that does is written. -/
theorem write_limitedTo_of_crosses (h : c.sink.limit = none) (hinside : c.output.length ≤ limit)
    (hcrosses : limit < c.output.length + (Text.bytes text).length) :
    ((c.limitedTo limit).write text).1 = .error .full ∧
      ((c.limitedTo limit).write text).2.output = (c.write text).2.output.take limit := by
  have hsize : ¬ c.sink.written.size + (Text.bytes text).length ≤ limit := by
    simpa [output] using hcrosses
  rw [output_write_of_unlimited h, List.take_append, List.take_of_length_le hinside]
  simp [write, limitedTo, output, Sink.write, Sink.fits, hsize]

/-- Reading does not depend on the limit. -/
theorem readWord_limitedTo (c : Console) (limit : Nat) :
    (c.limitedTo limit).readWord = (c.readWord.1, c.readWord.2.limitedTo limit) := by
  obtain ⟨pending, lines, sink, requests⟩ := c
  cases pending <;> rfl

end Console

/-! ## Runs with a limit -/

/-- Whether the effect is a write that fits on the output so far up to the limit, but not as a
whole. -/
def Effect.crosses (limit : Nat) : Effect → Machine → Bool
  | .write _ text, m =>
    m.console.output.length ≤ limit && limit < m.console.output.length + (Text.bytes text).length
  | _, _ => false

/-- The limited run, and those that stop before the limit is crossed, are where the run is. -/
structure WithinLimit (limit : Nat) (cs : Option (Effect → Stop) → Console) (c : Console) :
    Prop where
  unlimited : c.sink.limit = none
  inside : c.output.length ≤ limit
  limited : cs none = c.limitedTo limit
  watched : ∀ stop, cs (some stop) = c

/-- The limited run, and those that stop before the limit is crossed, have stopped at the same
write, and the run has gone on. -/
structure BeyondLimit (limit : Nat) (es : Option (Effect → Stop) → Stop)
    (ms : Option (Effect → Stop) → Machine) (m : Machine) (place : Span) (text : String)
    (m₁ : Machine) : Prop where
  crosses : Effect.crosses limit (.write place text) m₁ = true
  watched : ∀ stop, es (some stop) = stop (.write place text) ∧ ms (some stop) = m₁
  limited : es none = .fault ⟨.outputFailed .full, place⟩
  output : (ms none).console.output = m.console.output.take limit
  beyond : limit < m.console.output.length

/-- A run without a limit on its output, escorted by the run with the limit and by those that
stop before it is crossed. -/
def limiting (limit : Nat) : Escort (Option (Effect → Stop)) where
  watch
    | none => .never
    | some stop => .before (Effect.crosses limit) stop
  admits _ _ := True
  home _ := True
  fresh _ := True
  kept _ := True
  abreast := WithinLimit limit
  cutOff es ms m := ∃ place text m₁, BeyondLimit limit es ms m place text m₁

section Limiting

variable {limit : Nat} {ms : Option (Effect → Stop) → Machine} {m : Machine}

/-- A write that stays within the limit. -/
theorem limiting_fits (hm : (limiting limit).Together ms m) {text : String} {span : Span}
    (hfits : m.console.output.length + (Text.bytes text).length ≤ limit) :
    (limiting limit).Ends (fun _ => True)
      (fun i => Exec.writeWatched ((limiting limit).watch i) text span) (Exec.write text span)
      ms m := by
  have hconsoles : WithinLimit limit (fun i => (ms i).console) m.console := hm.consoles
  have hunlimited := hconsoles.unlimited
  have hwrite : (m.console.write text).1 = .ok () := by
    rw [Console.write_of_unlimited hunlimited]
  have hrun : Exec.write text span m = .ok () { m with console := (m.console.write text).2 } := by
    rw [Exec.write_eq, hwrite]
  have hsilent : ¬ Effect.crosses limit (.write span text) m = true := by
    simp only [Effect.crosses, Bool.and_eq_true, decide_eq_true_eq]
    omega
  let ms' : Option (Effect → Stop) → Machine
    | none => { ms none with console := (m.console.write text).2.limitedTo limit }
    | some _ => { m with console := (m.console.write text).2 }
  refine .returns () ms' _ (fun i => ?_) hrun ⟨fun i => ?_, hm.values, trivial, ?_⟩ trivial
  · cases i with
    | none =>
        have hlimited : (ms none).console = m.console.limitedTo limit := hconsoles.limited
        have hwritten := Console.write_limitedTo_of_fits hunlimited hfits
        rw [Exec.writeWatched_of_none rfl, Exec.write_eq, hlimited, hwritten]
    | some stop =>
        rw [hm.machine_eq (hconsoles.watched stop), Exec.writeWatched_of_none, hrun]
        exact Watch.before_of_not_marked hsilent
  · cases i with
    | none => exact hm.stores none
    | some stop => rfl
  · refine ⟨?_, ?_, rfl, fun _ => rfl⟩
    · change (m.console.write text).2.sink.limit = none
      rw [Console.write_of_unlimited hunlimited]
      exact hunlimited
    · change (m.console.write text).2.output.length ≤ limit
      rw [Console.output_write_of_unlimited hunlimited, List.length_append]
      exact hfits

/-- The write that crosses the limit. -/
theorem limiting_crosses (hm : (limiting limit).Together ms m) {text : String} {span : Span}
    (hcrosses : limit < m.console.output.length + (Text.bytes text).length) :
    (limiting limit).Ends (fun _ => True)
      (fun i => Exec.writeWatched ((limiting limit).watch i) text span) (Exec.write text span)
      ms m := by
  have hconsoles : WithinLimit limit (fun i => (ms i).console) m.console := hm.consoles
  have hunlimited := hconsoles.unlimited
  have hinside : m.console.output.length ≤ limit := hconsoles.inside
  have hlimited : (ms none).console = m.console.limitedTo limit := hconsoles.limited
  have hmarked : Effect.crosses limit (.write span text) m = true := by
    simp only [Effect.crosses, Bool.and_eq_true, decide_eq_true_eq]
    exact ⟨hinside, hcrosses⟩
  rcases Console.write_limitedTo_of_crosses hunlimited hinside hcrosses with ⟨hfull, houtput⟩
  have hrun : Exec.write text span m = .ok () { m with console := (m.console.write text).2 } := by
    rw [Exec.write_eq, Console.write_of_unlimited hunlimited]
  let es : Option (Effect → Stop) → Stop
    | none => .fault ⟨.outputFailed .full, span⟩
    | some stop => stop (.write span text)
  let ms' : Option (Effect → Stop) → Machine
    | none => { ms none with console := ((m.console.limitedTo limit).write text).2 }
    | some _ => m
  refine .cut es ms' (fun i => ?_) ⟨span, text, m, hmarked, fun _ => ⟨rfl, rfl⟩, rfl, ?_, ?_⟩
  · cases i with
    | none => rw [Exec.writeWatched_of_none rfl, Exec.write_eq, hlimited, hfull]
    | some stop =>
        rw [hm.machine_eq (hconsoles.watched stop)]
        exact Exec.writeWatched_of_some (Watch.before_of_marked hmarked)
  · rw [Exec.final_of_ok hrun]
    exact houtput
  · rw [Exec.final_of_ok hrun]
    change limit < (m.console.write text).2.output.length
    rw [Console.output_write_of_unlimited hunlimited, List.length_append]
    exact hcrosses

/-- What is written later leaves the beginning of the output as it is. -/
theorem BeyondLimit.later {es : Option (Effect → Stop) → Stop} {m' m₁ : Machine} {place : Span}
    {text : String} (h : BeyondLimit limit es ms m place text m₁) (honward : m.Onward m') :
    BeyondLimit limit es ms m' place text m₁ where
  crosses := h.crosses
  watched := h.watched
  limited := h.limited
  output := by
    rcases honward.output with ⟨more, hmore⟩
    rw [← hmore, List.take_append_of_le_length (Nat.le_of_lt h.beyond)]
    exact h.output
  beyond := Nat.lt_of_lt_of_le h.beyond honward.output.length_le

/-- Nobody stops what is not a write. -/
theorem limiting_silent {e : Effect} (he : ∀ m, Effect.crosses limit e m = false)
    (ms : Option (Effect → Stop) → Machine) (m : Machine) (st : Store) :
    (limiting limit).Announced e ms m st := by
  refine .silent (fun i => ?_) trivial
  cases i with
  | none => rfl
  | some stop =>
      apply Watch.before_of_not_marked
      rw [he]
      nofun

theorem lawful_limiting (limit : Nat) : (limiting limit).Lawful where
  later hcut honward := by
    rcases hcut with ⟨place, text, m₁, hbeyond⟩
    exact ⟨place, text, m₁, hbeyond.later honward⟩
  inside _ _ _ := trivial
  argument _ _ _ _ := trivial
  home _ := trivial
  fresh _ _ := trivial
  newScope := .newScope fun _ _ => ⟨trivial, trivial⟩
  bindAll _ _ _ := trivial
  close _ _ _ _ _ := trivial
  declare _ _ ms m _ _ _ := limiting_silent (fun _ => rfl) ms m _
  assign _ _ _ ms m _ := limiting_silent (fun _ => rfl) ms m _
  write text span := by
    refine ⟨Exec.onward_write text span, fun _ ms m hm => ?_⟩
    by_cases hfits : m.console.output.length + (Text.bytes text).length ≤ limit
    · exact limiting_fits hm hfits
    · exact limiting_crosses hm (Nat.lt_of_not_le hfits)
  readInteger span := by
    apply Escort.Relates.readInteger_of_alike
    intro cs c hcs
    have hlimited := Console.readWord_limitedTo c limit
    have hread : ∀ i, (cs i).readWord.1 = c.readWord.1 := by
      intro i
      cases i with
      | none => rw [hcs.limited, hlimited]
      | some stop => rw [hcs.watched]
    refine ⟨hread, ⟨?_, ?_, ?_, fun stop => ?_⟩⟩
    · rw [Console.sink_readWord]
      exact hcs.unlimited
    · rw [Console.output_readWord]
      exact hcs.inside
    · rw [hcs.limited, hlimited]
    · rw [hcs.watched]

end Limiting

/-! ## Programs -/

/-- How a run ends that stops for a reason. -/
def Stop.ending : Stop → Ending
  | .fault f => .fault f
  | .outOfFuel => .outOfFuel

namespace Program

variable {p : Program} {fuel : Nat} {c : Console} {m : Machine}

theorem run_eq (p : Program) (fuel : Nat) (c : Console) :
    p.run fuel c = match execute fuel p.root (.initial c) with
      | .ok v m => ⟨.value v.render, m.console⟩
      | .error e m => ⟨e.ending, m.console⟩ := by
  unfold run
  split
  next hcall =>
    change execute fuel p.root (.initial c) = _ at hcall
    rw [hcall]
  next hcall =>
    change execute fuel p.root (.initial c) = _ at hcall
    rw [hcall]
    rfl
  next hcall =>
    change execute fuel p.root (.initial c) = _ at hcall
    rw [hcall]
    rfl

theorem run_of_ok {v : Value} (h : execute fuel p.root (.initial c) = .ok v m) :
    p.run fuel c = ⟨.value v.render, m.console⟩ := by
  rw [run_eq, h]

theorem run_of_error {e : Stop} (h : execute fuel p.root (.initial c) = .error e m) :
    p.run fuel c = ⟨e.ending, m.console⟩ := by
  rw [run_eq, h]

theorem console_run (p : Program) (fuel : Nat) (c : Console) :
    (p.run fuel c).console = ((execute fuel p.root).final (.initial c)).console := by
  unfold Exec.final
  rw [run_eq]
  cases execute fuel p.root (.initial c) <;> rfl

/-- A program with a limit on its output, from a console whose output is within it: either all
of the output is, and the run ends as without the limit; or the run stops at the first write
that crosses the limit. -/
theorem run_limitedTo (p : Program) (fuel : Nat) (hunlimited : c.sink.limit = none) {limit : Nat}
    (hinside : c.output.length ≤ limit) :
    let whole := p.run fuel c
    (whole.console.output.length ≤ limit ∧
      p.run fuel (c.limitedTo limit) = ⟨whole.ending, whole.console.limitedTo limit⟩) ∨
    (limit < whole.console.output.length ∧ ∃ place text m₁ m,
      ComesFirstTo (Effect.crosses limit) fuel p.root Store.globalId (.initial c)
        (.write place text) m₁ ∧
      execute fuel p.root (.initial (c.limitedTo limit)) =
        .error (.fault ⟨.outputFailed .full, place⟩) m ∧
      m.console.output = whole.console.output.take limit) := by
  intro whole
  let ms : Option (Effect → Stop) → Machine
    | none => .initial (c.limitedTo limit)
    | some _ => .initial c
  have hvalues : ∀ v, (limiting limit).Holds v := Escort.holds_of_home _ fun _ => trivial
  have htogether : (limiting limit).Together ms (.initial c) := by
    refine ⟨fun i => ?_, fun _ _ v _ => hvalues v, trivial, hunlimited, hinside, rfl, fun _ => rfl⟩
    cases i <;> rfl
  have hlimited : ∀ {r}, evalWatched .never fuel p.root Store.globalId (ms none) = r →
      execute fuel p.root (.initial (c.limitedTo limit)) = r := by
    intro r hr
    rw [evalWatched_never] at hr
    exact hr
  cases ((lawful_limiting limit).eval fuel p.root Store.globalId).ends trivial ms _ htogether with
  | returns v ms' m' escorts run together holds =>
      have hwhole : whole = _ := run_of_ok run
      have hconsole : (ms' none).console = m'.console.limitedTo limit := together.consoles.limited
      rw [hwhole, run_of_ok (hlimited (escorts none)), hconsole]
      exact .inl ⟨together.consoles.inside, rfl⟩
  | stops e ms' m' escorts run together =>
      have hconsole : (ms' none).console = m'.console.limitedTo limit := together.consoles.limited
      have hwhole : whole = _ := run_of_error run
      rw [hwhole, run_of_error (hlimited (escorts none)), hconsole]
      exact .inl ⟨together.consoles.inside, rfl⟩
  | cut es ms' escorts cutOff =>
      rcases cutOff with ⟨place, text, m₁, hbeyond⟩
      have hwhole : whole.console = _ := console_run p fuel c
      rw [hwhole]
      refine .inr ⟨hbeyond.beyond, place, text, m₁, ms' none, ⟨hbeyond.crosses, ?_⟩, ?_,
        hbeyond.output⟩
      · intro stop
        rw [← (hbeyond.watched stop).1, ← (hbeyond.watched stop).2]
        exact escorts (some stop)
      · rw [← hbeyond.limited]
        exact hlimited (escorts none)

end Program

/-- A run with a limit on its output is the beginning of the run without it, whatever the source
text and the input are, and however either of them ends. It writes the beginning of the whole
output. If all of that is within the limit, it ends in the same way. Otherwise it ends with the
fault of a full console, at the call whose text is the first to cross the limit. -/
theorem limited_run_truncates (source : String) (input : List UInt8) (limit fuel : Nat) :
    let whole := run fuel source (.ofInput input none)
    let cut := run fuel source (.ofInput input (some limit))
    cut.console.output = whole.console.output.take limit ∧
      (whole.console.output.length ≤ limit → cut.ending = whole.ending) ∧
      (limit < whole.console.output.length →
        ∃ p f text m n, compile source = .ok p ∧ cut.ending = .fault f ∧ f.code = .console ∧
          f.message = "output failed: failed to write whole buffer" ∧
          ComesFirstTo (Effect.crosses limit) fuel p.root Store.globalId
            (.initial (.ofInput input none)) (.write f.span text) m ∧
          p.root.Contains n ∧ n.tag = .call ∧ n.span = f.span) := by
  intro whole cut
  cases hcompile : compile source with
  | error f =>
      have hwhole : whole = ⟨.fault f, .ofInput input none⟩ := by
        simp only [whole, run, hcompile]
      have hcut : cut = ⟨.fault f, .ofInput input (some limit)⟩ := by
        simp only [cut, run, hcompile]
      rw [hwhole, hcut]
      refine ⟨List.take_nil.symm, fun _ => rfl, fun hbeyond => ?_⟩
      exact absurd hbeyond (Nat.not_lt_zero limit)
  | ok p =>
      have hwhole : whole = p.run fuel (.ofInput input none) := by
        simp only [whole, run, hcompile]
      have hcut : cut = p.run fuel ((Console.ofInput input none).limitedTo limit) := by
        simp only [cut, run, hcompile]
        rfl
      have hempty : (Console.ofInput input none).output.length ≤ limit := Nat.zero_le limit
      rw [hwhole, hcut]
      rcases p.run_limitedTo fuel rfl hempty with
        ⟨hinside, hrun⟩ | ⟨hbeyond, place, text, m₁, m, hfirst, hstops, houtput⟩
      · rw [hrun]
        refine ⟨(List.take_of_length_le hinside).symm, fun _ => rfl, fun hbeyond => ?_⟩
        exact absurd hbeyond (Nat.not_lt.2 hinside)
      · have hroot := (resolved_of_compile hcompile).1
        rcases (Session.start _).isBlamedIn hroot.conforms hroot.allowsTag hstops with
          ⟨n, hn, hspan, hblames⟩
        have hmessage : (Cause.outputFailed .full).message =
            "output failed: failed to write whole buffer" := by decide
        rw [Program.run_of_error hstops]
        refine ⟨houtput, fun hinside => absurd hbeyond (Nat.not_lt.2 hinside), fun _ => ?_⟩
        exact ⟨p, _, text, m₁, n, rfl, rfl, rfl, hmessage, hfirst, hn, hblames, hspan⟩

/-- A text that ends at the limit fits, and so does an empty one after it. -/
example : (run 20 "print(\"ab\"); print(\"\"); print(\"c\");" (.ofInput [] (some 2))).ending =
    .fault ⟨.outputFailed .full, ⟨1, 25⟩⟩ := by
  decide +kernel

end ScopeLang
