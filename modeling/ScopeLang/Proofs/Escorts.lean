-- SUMMARY: A run and others that keep to it until they stop: what they have in common until then.
import ScopeLang.Proofs.Watching

/-! # Escorted runs

A run is escorted by others on the same store, which do all that it does. They
may be watched, and their consoles may be others, so that at some point they all
stop; the run itself goes on alone. An `Escort` says how the machines compare as
long as the runs are together, and what is known once the escorts have been cut
off. This has to stay true whatever the run does later, and all that is known of
that is that it goes onward: it adds to its store, to its output and to the words
it has asked for.

`Escort.Lawful` lists what an escort has to satisfy effect by effect. The main
statement, `Lawful.eval`, is that evaluation ends with all runs together, or with
the escorts cut off. Without any escorts this is a statement about a single run.
-/

namespace ScopeLang

/-! ## Going onward -/

/-- What has been written to a console. -/
def Console.output (c : Console) : List UInt8 :=
  c.sink.written.toList

/-- Reading leaves the sink alone. -/
theorem Console.sink_readWord (c : Console) : c.readWord.2.sink = c.sink := by
  unfold readWord
  split <;> rfl

theorem Console.output_readWord (c : Console) : c.readWord.2.output = c.output := by
  unfold output
  rw [sink_readWord]

/-- Reading asks for one more word. -/
theorem Console.requests_readWord (c : Console) : c.readWord.2.requests = c.requests + 1 := by
  unfold readWord
  split <;> rfl

/-- The second machine has what the first one has: its scopes with their names, what it has
written, and the words it has asked for. -/
structure Machine.Onward (m m' : Machine) : Prop where
  store : m.store.Extends m'.store
  output : m.console.output <+: m'.console.output
  requests : m.console.requests ≤ m'.console.requests

namespace Machine.Onward

variable {m m' m'' : Machine}

theorem refl (m : Machine) : m.Onward m :=
  ⟨.refl _, List.prefix_rfl, Nat.le_refl _⟩

theorem trans (h : m.Onward m') (h' : m'.Onward m'') : m.Onward m'' :=
  ⟨h.store.trans h'.store, h.output.trans h'.output, Nat.le_trans h.requests h'.requests⟩

theorem ofStore {st : Store} (h : m.store.Extends st) : m.Onward { m with store := st } :=
  ⟨h, List.prefix_rfl, Nat.le_refl _⟩

theorem readWord (m : Machine) : m.Onward { m with console := m.console.readWord.2 } where
  store := .refl _
  output := ⟨[], (List.append_nil _).trans m.console.output_readWord.symm⟩
  requests := Nat.le_trans (Nat.le_succ _) (Nat.le_of_eq m.console.requests_readWord.symm)

theorem write (m : Machine) (text : String) :
    m.Onward { m with console := (m.console.write text).2 } := by
  refine ⟨.refl _, ?_, Nat.le_refl _⟩
  simp only [Console.output, Console.write, Sink.write]
  split
  · simp
  · simp

end Machine.Onward

/-- The action goes onward, whether it returns or stops. -/
def Exec.Onward {α : Type} (x : Exec α) : Prop :=
  ∀ m : Machine, m.Onward (x.final m)

namespace Exec

variable {α β : Type} {x : Exec α} {f : α → Exec β} {a : α} {e : Stop} {m m' : Machine}

theorem final_bind_of_ok (h : x m = .ok a m') : (x >>= f).final m = (f a).final m' := by
  unfold final
  rw [bind_of_ok h]

theorem final_bind_of_error (h : x m = .error e m') : (x >>= f).final m = m' :=
  final_of_error (bind_of_error h)

/-- What follows an action goes onward from where the action ends. -/
theorem onward_final_bind (x : Exec α) (hf : ∀ a, (f a).Onward) (m : Machine) :
    (x.final m).Onward ((x >>= f).final m) := by
  cases hx : x m with
  | ok a m' =>
      rw [final_of_ok hx, final_bind_of_ok hx]
      exact hf a m'
  | error e m' =>
      rw [final_of_error hx, final_bind_of_error hx]
      exact .refl m'

/-- What a write leaves and how it ends is up to the console. -/
theorem write_eq (text : String) (span : Span) (m : Machine) :
    write text span m = match (m.console.write text).1 with
      | .ok () => .ok () { m with console := (m.console.write text).2 }
      | .error why => .error (.fault ⟨.outputFailed why, span⟩)
          { m with console := (m.console.write text).2 } := by
  change (match (m.console.write text).1 with
    | .ok () => pure ()
    | .error why => fail (.outputFailed why) span : Exec Unit)
      { m with console := (m.console.write text).2 } = _
  cases (m.console.write text).1 <;> rfl

theorem onward_write (text : String) (span : Span) : (write text span).Onward := by
  intro m
  unfold final
  rw [write_eq]
  cases (m.console.write text).1 <;> exact .write m text

/-- What the answer of a console means to a call that reads an integer. -/
def integerOf : Except ConsoleFailure (Option String) → Except Cause Int64
  | .error why => .error (.inputFailed why)
  | .ok none => .error .inputEnded
  | .ok (some word) =>
    match Decimal.read? word with
    | some n => .ok n
    | none => .error (.notAnInteger word)

/-- What a read leaves and how it ends is up to the console. -/
theorem readInteger_eq (span : Span) (m : Machine) :
    readInteger span m = match integerOf m.console.readWord.1 with
      | .ok n => .ok n { m with console := m.console.readWord.2 }
      | .error cause => .error (.fault ⟨cause, span⟩)
          { m with console := m.console.readWord.2 } := by
  change (match m.console.readWord.1 with
    | .error why => fail (.inputFailed why) span
    | .ok none => fail .inputEnded span
    | .ok (some word) =>
      match Decimal.read? word with
      | some n => pure n
      | none => fail (.notAnInteger word) span : Exec Int64)
      { m with console := m.console.readWord.2 } = _
  unfold integerOf
  rcases m.console.readWord.1 with why | word?
  · rfl
  cases word? with
  | none => rfl
  | some word => cases hword : Decimal.read? word <;> simp only [hword] <;> rfl

theorem onward_readInteger (span : Span) : (readInteger span).Onward := by
  intro m
  unfold final
  rw [readInteger_eq]
  cases integerOf m.console.readWord.1 <;> exact .readWord m

end Exec

/-! ## Escorts -/

/-- Whether evaluation comes to child `i` of a node in the scope of the node itself, and not in
a new one. -/
def Tag.sharesScope : Tag → Nat → Bool
  | .binary _, _ | .statement, _ | .program, _ | .block, _ => true
  | .assignment, 1 => true
  | .conditional, 0 | .conditional, 2 => true
  | .loop, 0 => true
  | _, _ => false

/-- What a run and those that escort it have in common. -/
structure Escort (ι : Type) where
  /-- Who watches each of the escorts. -/
  watch : ι → Watch
  /-- Nodes that may be evaluated in a scope. -/
  admits : Node → ScopeId → Prop
  /-- Scopes that functions may belong to. -/
  home : ScopeId → Prop
  /-- Scopes that may be created on the way. -/
  fresh : ScopeId → Prop
  /-- What is known of the store, as long as the runs are together. -/
  kept : Store → Prop
  /-- How the consoles of the escorts and that of the run compare, as long as they are together. -/
  abreast : (ι → Console) → Console → Prop
  /-- What is known if the escorts have stopped with these machines, and the run has come to the
  last one. -/
  cutOff : (ι → Stop) → (ι → Machine) → Machine → Prop

namespace Escort

variable {ι : Type} (E : Escort ι)

/-- The value is no function, or one with a home. -/
def Holds : Value → Prop
  | .function f => E.home f.home
  | _ => True

theorem holds_of_home (h : ∀ id, E.home id) (v : Value) : E.Holds v := by
  cases v with
  | function f => exact h f.home
  | int | str | intrinsic | unit => trivial

/-- The runs are together. -/
structure Together (ms : ι → Machine) (m : Machine) : Prop where
  stores : ∀ i, (ms i).store = m.store
  values : ∀ id name v, (m.store.bindings id).get? name = some (some v) → E.Holds v
  kept : E.kept m.store
  consoles : E.abreast (fun i => (ms i).console) m.console

/-- The runs return with the same value or stop for the same reason, and are together; or the
escorts have been cut off. -/
inductive Ends {α : Type} (post : α → Prop) (x : ι → Exec α) (y : Exec α) (ms : ι → Machine)
    (m : Machine) : Prop
  | returns (a : α) (ms' : ι → Machine) (m' : Machine) (escorts : ∀ i, x i (ms i) = .ok a (ms' i))
      (run : y m = .ok a m') (together : E.Together ms' m') (holds : post a)
  | stops (e : Stop) (ms' : ι → Machine) (m' : Machine)
      (escorts : ∀ i, x i (ms i) = .error e (ms' i)) (run : y m = .error e m')
      (together : E.Together ms' m')
  | cut (es : ι → Stop) (ms' : ι → Machine) (escorts : ∀ i, x i (ms i) = .error (es i) (ms' i))
      (cutOff : E.cutOff es ms' (y.final m))

/-- The run goes onward in any case. If the condition holds, it is escorted. -/
structure Relates {α : Type} (pre : Prop) (post : α → Prop) (x : ι → Exec α) (y : Exec α) :
    Prop where
  onward : y.Onward
  ends : pre → ∀ ms m, E.Together ms m → E.Ends post x y ms m

/-- Nobody stops the effect, which leaves a store of which the same is known; or all escorts
stop before it. -/
inductive Announced (e : Effect) (ms : ι → Machine) (m : Machine) (st : Store) : Prop
  | silent (none : ∀ i, E.watch i e (ms i) = none) (kept : E.kept st)
  | stopped (es : ι → Stop) (some : ∀ i, E.watch i e (ms i) = some (es i))
      (cutOff : E.cutOff es ms { m with store := st })

/-- What keeps the runs together or cuts off all escorts at once. -/
structure Lawful : Prop where
  /-- What is known once the escorts have been cut off stays known. -/
  later : ∀ {es : ι → Stop} {ms : ι → Machine} {m m' : Machine}, E.cutOff es ms m → m.Onward m' →
    E.cutOff es ms m'
  inside : ∀ {n c : Node} {i : Nat} {env : ScopeId}, E.admits n env → n.tag.sharesScope i = true →
    n.children[i]? = some c → E.admits c env
  argument : ∀ {n list a : Node} {env : ScopeId}, E.admits n env → n.tag = .call →
    n.children[0]? = some list → a ∈ list.children → E.admits a env
  home : ∀ {n : Node} {env : ScopeId}, E.admits n env → E.home env
  fresh : ∀ {id : ScopeId}, E.fresh id → ∀ n, E.admits n id
  newScope : ∀ {p : ScopeId}, E.Relates (E.home p) E.fresh (fun _ => Exec.newScope p)
    (Exec.newScope p)
  bindAll : ∀ {st : Store} {id : ScopeId} (pairs : List (String × Value)), E.kept st →
    E.fresh id → E.kept (st.bindAll id pairs)
  close : ∀ {st : Store} (home : ScopeId) (name : String) (parameters : List String)
    (body : Node), E.kept st → E.kept (st.close home name parameters body).2
  declare : ∀ {n : Node} {env : ScopeId} (name : String) (v? : Option Value) {ms : ι → Machine}
    {m : Machine}, E.admits n env → n.tag = .definition ∨ n.tag = .function → E.Together ms m →
    E.Announced (.declare env name) ms m (m.store.put env name v?)
  assign : ∀ (env : ScopeId) (name : String) (v : Value) {ms : ι → Machine} {m : Machine},
    E.Together ms m → E.Announced (.assign env name) ms m (m.store.assign env name v)
  write : ∀ (text : String) (span : Span), E.Relates True (fun _ => True)
    (fun i => Exec.writeWatched (E.watch i) text span) (Exec.write text span)
  readInteger : ∀ span : Span, E.Relates True (fun _ => True) (fun _ => Exec.readInteger span)
    (Exec.readInteger span)

variable {E}

/-! ## Actions -/

namespace Together

variable {ms : ι → Machine} {m : Machine}

/-- An escort on the console of the run is on the machine of the run. -/
theorem machine_eq (h : E.Together ms m) {i : ι} (hconsole : (ms i).console = m.console) :
    ms i = m := by
  have hstore := h.stores i
  cases hms : ms i with
  | mk store console =>
      rw [hms] at hstore hconsole
      cases hstore
      cases hconsole
      rfl

/-- The same change of all stores keeps the runs together, if what is known stays true. -/
theorem update (h : E.Together ms m) {st : Store} (hkept : E.kept st)
    (hvalues : ∀ id name v, (st.bindings id).get? name = some (some v) →
      (m.store.bindings id).get? name = some (some v) ∨ E.Holds v) :
    E.Together (fun i => { ms i with store := st }) { m with store := st } where
  stores _ := rfl
  values id name v hget := by
    rcases hvalues id name v hget with hold | hnew
    · exact h.values id name v hold
    · exact hnew
  kept := hkept
  consoles := h.consoles

theorem put (h : E.Together ms m) {id : ScopeId} {name : String} {v? : Option Value}
    (hkept : E.kept (m.store.put id name v?)) (hv : ∀ v, v? = some v → E.Holds v) :
    E.Together (fun i => { ms i with store := m.store.put id name v? })
      { m with store := m.store.put id name v? } := by
  apply h.update hkept
  intro j other v hget
  rw [Store.get?_put] at hget
  split at hget
  · exact .inr (hv v (Option.some.inj hget))
  · exact .inl hget

end Together

/-- A read on consoles that answer alike. -/
theorem Ends.readInteger {ms : ι → Machine} {m : Machine} {span : Span} (hm : E.Together ms m)
    (hanswers : ∀ i, (ms i).console.readWord.1 = m.console.readWord.1)
    (hconsoles : E.abreast (fun i => (ms i).console.readWord.2) m.console.readWord.2) :
    E.Ends (fun _ => True) (fun _ => Exec.readInteger span) (Exec.readInteger span) ms m := by
  have htogether : E.Together (fun i => { ms i with console := (ms i).console.readWord.2 })
      { m with console := m.console.readWord.2 } := ⟨hm.stores, hm.values, hm.kept, hconsoles⟩
  have hescorts := fun i => Exec.readInteger_eq span (ms i)
  have hrun := Exec.readInteger_eq span m
  simp only [hanswers] at hescorts
  cases hanswer : Exec.integerOf m.console.readWord.1 with
  | ok n =>
      simp only [hanswer] at hescorts hrun
      exact .returns n _ _ hescorts hrun htogether trivial
  | error cause =>
      simp only [hanswer] at hescorts hrun
      exact .stops _ _ _ hescorts hrun htogether

namespace Relates

variable {α β : Type} {pre pre' : Prop} {post : α → Prop} {after : β → Prop}
  {x : ι → Exec α} {y : Exec α}

theorem pure {a : α} (h : pre → post a) : E.Relates pre post (fun _ => Pure.pure a) (Pure.pure a)
    where
  onward m := .refl m
  ends hpre ms m hm := .returns a ms m (fun _ => rfl) rfl hm (h hpre)

theorem stop (e : Stop) : E.Relates pre post (fun _ => throw e) (throw e) where
  onward m := .refl m
  ends _ ms m hm := .stops e ms m (fun _ => rfl) rfl hm

theorem fail (cause : Cause) (span : Span) :
    E.Relates pre post (fun _ => Exec.fail cause span) (Exec.fail cause span) :=
  stop _

/-- Under a stronger condition. -/
theorem under (h : E.Relates pre post x y) (hpre : pre' → pre) : E.Relates pre' post x y where
  onward := h.onward
  ends hpre' := h.ends (hpre hpre')

/-- One action after another. What is known of the first value may be used for what follows. -/
theorem bind (hE : E.Lawful) {f : ι → α → Exec β} {g : α → Exec β} (hx : E.Relates pre post x y)
    (hf : ∀ a, E.Relates (pre ∧ post a) after (fun i => f i a) (g a)) :
    E.Relates pre after (fun i => x i >>= f i) (y >>= g) where
  onward m := (hx.onward m).trans (Exec.onward_final_bind y (fun a => (hf a).onward) m)
  ends hpre ms m hm := by
    cases hx.ends hpre ms m hm with
    | stops e ms' m' escorts run together =>
        exact .stops e ms' m' (fun i => Exec.bind_of_error (escorts i)) (Exec.bind_of_error run)
          together
    | cut es ms' escorts cutOff =>
        -- The run goes on with a value of which nothing is known, but it goes onward.
        apply Ends.cut es ms' fun i => Exec.bind_of_error (escorts i)
        exact hE.later cutOff (Exec.onward_final_bind y (fun a => (hf a).onward) m)
    | returns a ms' m' escorts run together holds =>
        cases (hf a).ends ⟨hpre, holds⟩ ms' m' together with
        | returns b ms'' m'' escorts' run' together' holds' =>
            exact .returns b ms'' m'' (fun i => (Exec.bind_of_ok (escorts i)).trans (escorts' i))
              ((Exec.bind_of_ok run).trans run') together' holds'
        | stops e ms'' m'' escorts' run' together' =>
            exact .stops e ms'' m'' (fun i => (Exec.bind_of_ok (escorts i)).trans (escorts' i))
              ((Exec.bind_of_ok run).trans run') together'
        | cut es ms'' escorts' cutOff =>
            apply Ends.cut es ms'' fun i => (Exec.bind_of_ok (escorts i)).trans (escorts' i)
            rw [Exec.final_bind_of_ok run]
            exact cutOff

/-- Child `i` of a node. -/
theorem kid (n : Node) (i : Nat) :
    E.Relates pre (fun c => n.children[i]? = some c) (fun _ => Exec.kid n i) (Exec.kid n i) := by
  unfold Exec.kid Node.kid
  split
  next c hc => exact pure fun _ => hc
  next => exact stop _

theorem readName (env : ScopeId) (name : String) (span : Span) :
    E.Relates pre E.Holds (fun _ => Exec.readName env name span)
      (Exec.readName env name span) := by
  have hread := Exec.readName_eq env name span
  constructor
  · intro m
    unfold Exec.final
    rw [hread m]
    cases m.store.lookup env name <;> exact .refl m
  · intro _ ms m hm
    have hescorts := fun i => hread (ms i)
    simp only [hm.stores] at hescorts
    have hrun := hread m
    cases hlookup : m.store.lookup env name with
    | assigned v =>
        simp only [hlookup] at hescorts hrun
        exact .returns v ms m hescorts hrun hm (hm.values _ _ v (Store.get?_of_lookup hlookup))
    | unassigned | undefined =>
        simp only [hlookup] at hescorts hrun
        exact .stops _ ms m hescorts hrun hm

theorem newScope {p : ScopeId}
    (h : ∀ st, E.kept st → E.kept (st.child p).2 ∧ E.fresh st.scopes.size) :
    E.Relates pre E.fresh (fun _ => Exec.newScope p) (Exec.newScope p) where
  onward m := .ofStore (.child m.store p)
  ends _ ms m hm := by
    rcases h m.store hm.kept with ⟨hkept, hfresh⟩
    have htogether := hm.update hkept fun id name v hget => .inl <| by
      rw [Store.bindings_child] at hget
      exact hget
    refine .returns m.store.scopes.size _ _ (fun i => ?_) rfl htogether hfresh
    rw [← hm.stores i]
    rfl

/-- A change of the store that is announced. -/
theorem updateWatched {e : Effect} {f : Store → Store} (hextends : ∀ st : Store, st.Extends (f st))
    (hannounced : pre → ∀ ms m, E.Together ms m → E.Announced e ms m (f m.store))
    (hvalues : pre → ∀ ms m, E.Together ms m → E.kept (f m.store) →
      E.Together (fun i => { ms i with store := f m.store }) { m with store := f m.store }) :
    E.Relates pre (fun _ => True) (fun i => Exec.updateWatched (E.watch i) e f)
      (Exec.updateStore f) where
  onward m := .ofStore (hextends m.store)
  ends hpre ms m hm := by
    cases hannounced hpre ms m hm with
    | silent none kept =>
        refine .returns () _ _ (fun i => ?_) rfl (hvalues hpre ms m hm kept) trivial
        rw [Exec.updateWatched_of_none (none i), hm.stores i]
    | stopped es some cutOff =>
        exact .cut es ms (fun i => Exec.updateWatched_of_some (some i)) cutOff

theorem declare (hE : E.Lawful) (n : Node) (env : ScopeId) (name : String) (v? : Option Value) :
    E.Relates (E.admits n env ∧ (n.tag = .definition ∨ n.tag = .function) ∧
        ∀ v, v? = some v → E.Holds v) (fun _ => True)
      (fun i => Exec.updateWatched (E.watch i) (.declare env name) fun st => st.put env name v?)
      (Exec.updateStore fun st => st.put env name v?) := by
  apply updateWatched
  · exact fun st => .put st env name v?
  · exact fun hpre ms m hm => hE.declare name v? hpre.1 hpre.2.1 hm
  · exact fun hpre ms m hm hkept => hm.put hkept hpre.2.2

theorem assign (hE : E.Lawful) (env : ScopeId) (name : String) (v : Value) :
    E.Relates (E.Holds v) (fun _ => True)
      (fun i => Exec.updateWatched (E.watch i) (.assign env name) fun st => st.assign env name v)
      (Exec.updateStore fun st => st.assign env name v) := by
  apply updateWatched
  · exact fun st => .put st _ name (some v)
  · exact fun _ ms m hm => hE.assign env name v hm
  · intro hv ms m hm hkept
    apply hm.put hkept
    intro w hw
    cases hw
    exact hv

theorem newFunction (hE : E.Lawful) (env : ScopeId) (name : String) (parameters : List String)
    (body : Node) :
    E.Relates (E.home env) (fun f => E.home f.home)
      (fun _ => Exec.newFunction env name parameters body)
      (Exec.newFunction env name parameters body) where
  onward m := .ofStore (.close m.store env name parameters body)
  ends henv ms m hm := by
    have hclose := hE.close env name parameters body hm.kept
    have htogether := hm.update hclose fun id other v hget => .inl <| by
      rw [Store.bindings_close] at hget
      exact hget
    refine .returns (m.store.close env name parameters body).1 _ _ (fun i => ?_) rfl htogether henv
    rw [← hm.stores i]
    rfl

/-- The parameters of a call, in its frame. -/
theorem bindAll (hE : E.Lawful) (id : ScopeId) (names : List String) (vs : List Value) :
    E.Relates (E.fresh id ∧ ∀ v ∈ vs, E.Holds v) (fun _ => True)
      (fun _ => Exec.updateStore fun st => st.bindAll id (names.zip vs))
      (Exec.updateStore fun st => st.bindAll id (names.zip vs)) where
  onward m := .ofStore (.bindAll m.store id (names.zip vs))
  ends hpre ms m hm := by
    have hbind := hE.bindAll (names.zip vs) hm.kept hpre.1
    refine .returns () _ _ (fun i => ?_) rfl (hm.update hbind ?_) trivial
    · rw [← hm.stores i]
      rfl
    · intro j other v hget
      rcases Store.get?_bindAll hget with hold | hnew
      · exact .inl hold
      · rcases List.mem_map.1 hnew with ⟨pair, hpair, rfl⟩
        exact .inr (hpre.2 _ (List.of_mem_zip hpair).2)

/-- A read, if the consoles answer alike whenever the runs are together. -/
theorem readInteger_of_alike {span : Span}
    (habreast : ∀ cs c, E.abreast cs c → (∀ i, (cs i).readWord.1 = c.readWord.1) ∧
      E.abreast (fun i => (cs i).readWord.2) c.readWord.2) :
    E.Relates pre (fun _ => True) (fun _ => Exec.readInteger span) (Exec.readInteger span) where
  onward := Exec.onward_readInteger span
  ends _ ms m hm := by
    rcases habreast _ _ hm.consoles with ⟨hanswers, hconsoles⟩
    exact .readInteger hm hanswers hconsoles

/-- A write that nobody stops, on consoles that answer alike. -/
theorem write_of_silent {text : String} {span : Span}
    (hsilent : ∀ ms m, E.Together ms m → ∀ i, E.watch i (.write span text) (ms i) = none)
    (habreast : ∀ cs c, E.abreast cs c → (∀ i, ((cs i).write text).1 = (c.write text).1) ∧
      E.abreast (fun i => ((cs i).write text).2) (c.write text).2) :
    E.Relates pre (fun _ => True) (fun i => Exec.writeWatched (E.watch i) text span)
      (Exec.write text span) where
  onward := Exec.onward_write text span
  ends _ ms m hm := by
    rcases habreast _ _ hm.consoles with ⟨hanswers, hconsoles⟩
    have htogether : E.Together (fun i => { ms i with console := ((ms i).console.write text).2 })
        { m with console := (m.console.write text).2 } :=
      ⟨hm.stores, hm.values, hm.kept, hconsoles⟩
    have hescorts : ∀ i, Exec.writeWatched (E.watch i) text span (ms i) = _ := fun i =>
      (Exec.writeWatched_of_none (hsilent ms m hm i)).trans (Exec.write_eq text span (ms i))
    have hrun := Exec.write_eq text span m
    simp only [hanswers] at hescorts
    cases hanswer : (m.console.write text).1 with
    | ok u =>
        simp only [hanswer] at hescorts hrun
        exact .returns () _ _ hescorts hrun htogether trivial
    | error why =>
        simp only [hanswer] at hescorts hrun
        exact .stops _ _ _ hescorts hrun htogether

/-- Run a body as long as a test holds. -/
theorem repeatWhile (hE : E.Lawful) {test : ι → Exec Bool} {test' : Exec Bool}
    {body : ι → Exec Unit} {body' : Exec Unit} (htest : E.Relates pre (fun _ => True) test test')
    (hbody : E.Relates pre (fun _ => True) body body') (rounds : Nat) :
    E.Relates pre (fun _ => True) (fun i => Exec.repeatWhile (test i) (body i) rounds)
      (Exec.repeatWhile test' body' rounds) := by
  induction rounds with
  | zero => exact stop _
  | succ rounds ih =>
      refine htest.bind hE fun goes => ?_
      cases goes with
      | false => exact pure fun _ => trivial
      | true =>
          refine (hbody.under And.left).bind hE fun _ => ?_
          exact ih.under fun h => h.1.1

end Relates

/-- In the end the runs are together, or the escorts have been cut off. -/
theorem Ends.final {α : Type} {post : α → Prop} {x : ι → Exec α} {y : Exec α} {ms : ι → Machine}
    {m : Machine} (h : E.Ends post x y ms m) :
    (∃ ms', E.Together ms' (y.final m)) ∨
      ∃ es ms', (∀ i, x i (ms i) = .error (es i) (ms' i)) ∧ E.cutOff es ms' (y.final m) := by
  cases h with
  | returns a ms' m' escorts run together holds =>
      rw [Exec.final_of_ok run]
      exact .inl ⟨ms', together⟩
  | stops e ms' m' escorts run together =>
      rw [Exec.final_of_error run]
      exact .inl ⟨ms', together⟩
  | cut es ms' escorts cutOff => exact .inr ⟨es, ms', escorts, cutOff⟩

/-! ## Constructs

Each construct is evaluated by way of evaluation of what nests in it. -/

/-- Evaluation of a node in a scope that admits it is escorted. -/
def Evaluates (E : Escort ι) (runs : ι → Node → ScopeId → Exec Value)
    (run : Node → ScopeId → Exec Value) : Prop :=
  ∀ n env, E.Relates (E.admits n env) E.Holds (fun i => runs i n env) (run n env)

namespace Evaluates

variable {runs : ι → Node → ScopeId → Exec Value} {run : Node → ScopeId → Exec Value} {n : Node}
  {env : ScopeId} {pre : Prop}

/-- A child that is evaluated in the scope of its node. -/
theorem child (hE : E.Lawful) (h : E.Evaluates runs run) {c : Node} {i : Nat}
    (hi : n.tag.sharesScope i = true) (hpre : pre → E.admits n env ∧ n.children[i]? = some c) :
    E.Relates pre E.Holds (fun j => runs j c env) (run c env) :=
  (h c env).under fun hp => hE.inside (hpre hp).1 hi (hpre hp).2

theorem operand (hE : E.Lawful) (h : E.Evaluates runs run) (c : Node) (env : ScopeId) :
    E.Relates (E.admits c env) (fun _ => True) (fun i => Exec.operand (runs i) c env)
      (Exec.operand run c env) := by
  refine (h c env).bind hE fun v => ?_
  cases v with
  | int n => exact .pure fun _ => trivial
  | str | function | intrinsic | unit => exact .stop _

theorem binary (hE : E.Lawful) (h : E.Evaluates runs run) {op : Operator}
    (htag : n.tag = .binary op) :
    E.Relates (E.admits n env) E.Holds (fun i => Exec.binary (runs i) op n env)
      (Exec.binary run op n env) := by
  have hshares : ∀ i, n.tag.sharesScope i = true := by
    intro i
    rw [htag]
    rfl
  refine (Relates.kid n 0).bind hE fun left => (Relates.kid n 1).bind hE fun right => ?_
  have hleft := (h.operand hE left env).under
    fun hpre : (E.admits n env ∧ n.children[0]? = some left) ∧ n.children[1]? = some right =>
      hE.inside hpre.1.1 (hshares 0) hpre.1.2
  refine hleft.bind hE fun l => ?_
  have hright := (h.operand hE right env).under
    fun hpre : ((E.admits n env ∧ n.children[0]? = some left) ∧
      n.children[1]? = some right) ∧ True => hE.inside hpre.1.1.1 (hshares 1) hpre.1.2
  rcases op with op | op | op
  · refine hright.bind hE fun r => ?_
    cases op.compute l r with
    | ok v => exact .pure fun _ => trivial
    | error cause => exact .fail _ _
  · exact hright.bind hE fun r => .pure fun _ => trivial
  · dsimp only
    split
    · exact .pure fun _ => trivial
    · exact hright.bind hE fun r => .pure fun _ => trivial

/-- Statements one after another. -/
theorem sequence (hE : E.Lawful) (h : E.Evaluates runs run) (ns : List Node)
    (hns : pre → ∀ n ∈ ns, E.admits n env) :
    E.Relates pre E.Holds (fun i => Exec.sequence (runs i) ns env) (Exec.sequence run ns env) := by
  suffices hall : ∀ v, (pre → E.Holds v) → E.Relates pre E.Holds
      (fun i => ns.foldlM (fun _ n => runs i n env) v) (ns.foldlM (fun _ n => run n env) v) from
    hall _ fun _ => trivial
  induction ns generalizing pre with
  | nil => exact fun v hv => .pure hv
  | cons n ns ih =>
      intro v _
      simp only [List.foldlM_cons]
      refine ((h n env).under fun hpre => hns hpre n List.mem_cons_self).bind hE fun w => ?_
      exact ih (fun hpre c hc => hns hpre.1 c (List.mem_cons_of_mem _ hc)) w And.right

theorem inNewScope (hE : E.Lawful) (h : E.Evaluates runs run) (block : Node) (env : ScopeId) :
    E.Relates (E.home env) E.Holds (fun i => Exec.inNewScope (runs i) block env)
      (Exec.inNewScope run block env) :=
  hE.newScope.bind hE fun inner => (h block inner).under fun hpre => hE.fresh hpre.2 block

theorem condition (hE : E.Lawful) (h : E.Evaluates runs run) (construct : Keyword) (test : Node)
    (env : ScopeId) :
    E.Relates (E.admits test env) (fun _ => True)
      (fun i => Exec.condition (runs i) construct test env)
      (Exec.condition run construct test env) := by
  refine (h test env).bind hE fun v => ?_
  cases v with
  | int n => exact .pure fun _ => trivial
  | str | function | intrinsic | unit => exact .fail _ _

theorem callFunction (hE : E.Lawful) (h : E.Evaluates runs run) (f : Closure) (vs : List Value)
    (span : Span) :
    E.Relates (E.home f.home ∧ ∀ v ∈ vs, E.Holds v) E.Holds
      (fun i => Exec.callFunction (runs i) f vs span) (Exec.callFunction run f vs span) := by
  unfold Exec.callFunction
  split
  · refine (hE.newScope.under And.left).bind hE fun frame => ?_
    have hbind := (Relates.bindAll hE frame f.parameters vs).under
      fun hpre : (E.home f.home ∧ ∀ v ∈ vs, E.Holds v) ∧ E.fresh frame => ⟨hpre.2, hpre.1.2⟩
    refine hbind.bind hE fun _ => ?_
    exact (h f.body frame).under fun hpre => hE.fresh hpre.1.2 f.body
  · exact .fail _ _

theorem callIntrinsic (hE : E.Lawful) (i : Intrinsic) (vs : List Value) (span : Span) :
    E.Relates pre E.Holds (fun j => Exec.callIntrinsicWatched (E.watch j) i vs span)
      (Exec.callIntrinsic i vs span) := by
  have hwrite : ∀ text, E.Relates pre E.Holds
      (fun j => do
        Exec.writeWatched (E.watch j) text span
        return .unit)
      (do
        Exec.write text span
        return .unit) := by
    intro text
    refine ((hE.write text span).under fun _ => trivial).bind hE fun _ => ?_
    exact .pure fun _ => trivial
  have hread : E.Relates pre E.Holds (fun _ => do return .int (← Exec.readInteger span))
      (do return .int (← Exec.readInteger span)) :=
    ((hE.readInteger span).under fun _ => trivial).bind hE fun _ => .pure fun _ => trivial
  match i, vs with
  | .print, [v] => exact hwrite v.render
  | .println, [v] => exact hwrite (v.render ++ "\n")
  | .readint, [] => exact hread
  | .print, [] | .print, _ :: _ :: _ | .println, [] | .println, _ :: _ :: _ | .readint, _ :: _ =>
    exact .fail _ _

/-- Arguments from left to right. -/
theorem arguments (hE : E.Lawful) (h : E.Evaluates runs run) (ns : List Node)
    (hns : pre → ∀ n ∈ ns, E.admits n env) :
    E.Relates pre (fun vs => ∀ v ∈ vs, E.Holds v) (fun i => ns.mapM fun n => runs i n env)
      (ns.mapM fun n => run n env) := by
  induction ns generalizing pre with
  | nil => exact .pure fun _ => nofun
  | cons n ns ih =>
      simp only [List.mapM_cons]
      refine ((h n env).under fun hpre => hns hpre n List.mem_cons_self).bind hE fun v => ?_
      refine (ih fun hpre c hc => hns hpre.1 c (List.mem_cons_of_mem _ hc)).bind hE fun vs => ?_
      exact .pure fun hpre => List.forall_mem_cons.2 ⟨hpre.1.2, hpre.2⟩

theorem call (hE : E.Lawful) (h : E.Evaluates runs run) (htag : n.tag = .call) :
    E.Relates (E.admits n env) E.Holds (fun i => Exec.callWatched (E.watch i) (runs i) n env)
      (Exec.call run n env) := by
  refine (Relates.readName env n.text n.span).bind hE fun callee => ?_
  refine (Relates.kid n 0).bind hE fun list => ?_
  have hadmits : (E.admits n env ∧ E.Holds callee) ∧ n.children[0]? = some list →
      ∀ a ∈ list.children, E.admits a env :=
    fun hpre a ha => hE.argument hpre.1.1 htag hpre.2 ha
  refine (h.arguments hE list.children hadmits).bind hE fun vs => ?_
  cases callee with
  | function f => exact (h.callFunction hE f vs n.span).under fun hpre => ⟨hpre.1.1.2, hpre.2⟩
  | intrinsic i => exact callIntrinsic hE i vs n.span
  | int | str | unit => exact .fail _ _

theorem definition (hE : E.Lawful) (htag : n.tag = .definition) :
    E.Relates (E.admits n env) E.Holds (fun i => Exec.definitionWatched (E.watch i) n env)
      (Exec.definition n env) := by
  refine (Relates.kid n 0).bind hE fun target => ?_
  refine ((Relates.declare hE n env target.text none).under ?_).bind hE fun _ => ?_
  · exact fun hpre => ⟨hpre.1, .inl htag, nofun⟩
  · exact .pure fun _ => trivial

theorem assignment (hE : E.Lawful) (h : E.Evaluates runs run) (htag : n.tag = .assignment) :
    E.Relates (E.admits n env) E.Holds (fun i => Exec.assignmentWatched (E.watch i) (runs i) n env)
      (Exec.assignment run n env) := by
  refine (Relates.kid n 0).bind hE fun target => (Relates.kid n 1).bind hE fun source => ?_
  refine (h.child hE ?_ fun hpre => ⟨hpre.1.1, hpre.2⟩).bind hE fun v => ?_
  · rw [htag]
    rfl
  · refine ((Relates.assign hE env target.text v).under And.right).bind hE fun _ => ?_
    exact .pure fun hpre => hpre.1.2

theorem conditional (hE : E.Lawful) (h : E.Evaluates runs run) (htag : n.tag = .conditional) :
    E.Relates (E.admits n env) E.Holds (fun i => Exec.conditional (runs i) n env)
      (Exec.conditional run n env) := by
  have hshares : ∀ i, i = 0 ∨ i = 2 → n.tag.sharesScope i = true := by
    rintro i (rfl | rfl)
    · rw [htag]; rfl
    · rw [htag]; rfl
  refine (Relates.kid n 0).bind hE fun test => ?_
  refine ((h.condition hE .conditional test env).under ?_).bind hE fun goes => ?_
  · exact fun hpre => hE.inside hpre.1 (hshares 0 (.inl rfl)) hpre.2
  cases goes with
  | true =>
      refine (Relates.kid n 1).bind hE fun block => ?_
      exact (h.inNewScope hE block env).under fun hpre => hE.home hpre.1.1.1
  | false =>
      simp only [Bool.false_eq_true, if_false]
      cases hc : n.children[2]? with
      | none => exact .pure fun _ => trivial
      | some c => exact h.child hE (hshares 2 (.inr rfl)) fun hpre => ⟨hpre.1.1, hc⟩

theorem loop (hE : E.Lawful) (h : E.Evaluates runs run) (rounds : Nat) (htag : n.tag = .loop) :
    E.Relates (E.admits n env) E.Holds (fun i => Exec.loop (runs i) rounds n env)
      (Exec.loop run rounds n env) := by
  refine (Relates.kid n 0).bind hE fun test => (Relates.kid n 1).bind hE fun block => ?_
  refine (Relates.repeatWhile hE ((h.condition hE .loop test env).under ?_) ?_ rounds).bind hE
    fun _ => .pure fun _ => trivial
  · intro hpre
    exact hE.inside hpre.1.1 (by rw [htag]; rfl) hpre.1.2
  · refine ((h.inNewScope hE block env).under ?_).bind hE fun _ => .pure fun _ => trivial
    exact fun hpre => hE.home hpre.1.1

theorem function (hE : E.Lawful) (htag : n.tag = .function) :
    E.Relates (E.admits n env) E.Holds (fun i => Exec.functionWatched (E.watch i) n env)
      (Exec.function n env) := by
  refine (Relates.kid n 0).bind hE fun parameters => (Relates.kid n 1).bind hE fun body => ?_
  refine ((Relates.newFunction hE env n.text (parameters.children.map Node.text) body).under
    ?_).bind hE fun f => ?_
  · exact fun hpre => hE.home hpre.1.1
  · refine ((Relates.declare hE n env n.text (some (.function f))).under ?_).bind hE fun _ => ?_
    · intro hpre
      refine ⟨hpre.1.1.1, .inr htag, fun v hv => ?_⟩
      cases hv
      exact hpre.2
    · exact .pure fun _ => trivial

theorem number (n : Node) :
    E.Relates pre E.Holds (fun _ => Exec.number n) (Exec.number n) := by
  unfold Exec.number
  split
  · exact .pure fun _ => trivial
  · exact .fail _ _

/-- One level of evaluation is escorted if the level below is. -/
theorem step (hE : E.Lawful) (h : E.Evaluates runs run) (rounds : Nat) :
    E.Evaluates (fun i => Exec.stepWatched (E.watch i) (runs i) rounds) (Exec.step run rounds) := by
  intro n env
  simp only [Exec.stepWatched, Exec.step]
  cases htag : n.tag with
  | number => exact number n
  | text => exact .pure fun _ => trivial
  | name => exact .readName env n.text n.span
  | binary op => exact h.binary hE htag
  | statement =>
      refine (Relates.kid n 0).bind hE fun inside => ?_
      exact h.child hE (by rw [htag]; rfl) id
  | program | block =>
      refine h.sequence hE n.children fun hn c hc => ?_
      rcases List.getElem?_of_mem hc with ⟨i, hi⟩
      exact hE.inside hn (by rw [htag]; rfl) hi
  | definition => exact definition hE htag
  | assignment => exact h.assignment hE htag
  | conditional => exact h.conditional hE htag
  | alternative =>
      refine (Relates.kid n 0).bind hE fun block => ?_
      exact (h.inNewScope hE block env).under fun hpre => hE.home hpre.1
  | loop => exact h.loop hE rounds htag
  | function => exact function hE htag
  | call => exact h.call hE htag
  | arguments | parameters => exact .fail _ _

end Evaluates

/-- Evaluation is escorted, whatever the fuel. -/
theorem Lawful.eval (hE : E.Lawful) (fuel : Nat) :
    E.Evaluates (fun i => evalWatched (E.watch i) fuel) (ScopeLang.eval fuel) := by
  induction fuel with
  | zero => exact fun _ _ => .stop .outOfFuel
  | succ fuel ih => exact ih.step hE fuel

end Escort

end ScopeLang
