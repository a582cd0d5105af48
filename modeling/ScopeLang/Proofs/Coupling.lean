-- SUMMARY: Two runs side by side: a relation that the machine's actions keep is kept by evaluation.
import Mathlib.Data.List.Forall2
import ScopeLang.Eval
import ScopeLang.Proofs.Scopes

/-! # Coupled runs

A `Coupling` says what two runs have in common: which nodes may be evaluated in
each other's place, which scopes both of them may come to, and how their
consoles and their faults compare. How values, scopes, stores and machines
compare follows from that. Related machines agree on the shared scopes, up to
the bodies of functions; the scopes apart are not touched by either run.

`Coupling.Lawful` lists what a coupling has to satisfy node by node. The main
statement, `Lawful.eval`, is that evaluating related nodes in a shared scope on
related machines ends alike in both runs. A property of a single run is the
case of a coupling of the run with itself.
-/

namespace ScopeLang

/-! ## Faults that a node can raise -/

/-- What a child of a node is called for. -/
inductive ChildUse
  | evaluated
  /-- For its text. -/
  | named
  /-- For the texts of its children. -/
  | parameters
  /-- For its children, which are evaluated. -/
  | arguments

/-- What child `i` of a node is called for by evaluation, which cannot do without it. -/
def Tag.childUse? : Tag → Nat → Option ChildUse
  | .binary _, 0 | .binary _, 1 => some .evaluated
  | .statement, 0 => some .evaluated
  | .definition, 0 => some .named
  | .assignment, 0 => some .named
  | .assignment, 1 => some .evaluated
  | .conditional, 0 | .conditional, 1 => some .evaluated
  | .alternative, 0 => some .evaluated
  | .loop, 0 | .loop, 1 => some .evaluated
  | .function, 0 => some .parameters
  | .function, 1 => some .evaluated
  | .call, 0 => some .arguments
  | _, _ => none

/-- Whether a node can raise the cause at its own place, for another reason than a
missing child. -/
def Tag.raises : Tag → Cause → Bool
  | .number, .literalOutOfRange _ => true
  | .name, .unassignedName _ | .name, .undefinedName _ => true
  | .binary (.arithmetic .div), .divisionByZero => true
  | .binary (.arithmetic _), .overflow _ _ _ => true
  | .call, .unassignedName _ | .call, .undefinedName _ | .call, .argumentCount _ _ _
  | .call, .notCallable _ _ | .call, .outputFailed _ | .call, .inputFailed _
  | .call, .inputEnded | .call, .notAnInteger _ => true
  | .arguments, .notEvaluable _ | .parameters, .notEvaluable _ => true
  | _, _ => false

/-- Whether a node can raise the cause at the place of its child `i`. -/
def Tag.raisesAt : Tag → Nat → Cause → Bool
  | .binary _, 0, .nonNumericOperand _ | .binary _, 1, .nonNumericOperand _ => true
  | .conditional, 0, .nonNumericCondition _ _ | .loop, 0, .nonNumericCondition _ _ => true
  | _, _, _ => false

theorem Tag.raises_of_compute {op : Arithmetic} {l r : Int64} {cause : Cause}
    (h : op.compute l r = .error cause) : (Tag.binary (.arithmetic op)).raises cause = true := by
  unfold Arithmetic.compute at h
  split at h
  next hzero =>
    obtain ⟨rfl, -⟩ := hzero
    cases h
    rfl
  next =>
    split at h
    · cases h
    · cases h
      cases op <;> rfl

/-! ## How an action ends -/

namespace Exec

variable {α : Type}

/-- How an action ends. -/
def outcome (x : Exec α) (m : Machine) : Except Stop α :=
  match x m with
  | .ok a _ => .ok a
  | .error e _ => .error e

/-- The machine that an action leaves. -/
def final (x : Exec α) (m : Machine) : Machine :=
  match x m with
  | .ok _ m' => m'
  | .error _ m' => m'

theorem final_of_ok {x : Exec α} {a : α} {m m' : Machine} (h : x m = .ok a m') :
    x.final m = m' := by
  unfold final
  rw [h]

theorem final_of_error {x : Exec α} {e : Stop} {m m' : Machine} (h : x m = .error e m') :
    x.final m = m' := by
  unfold final
  rw [h]

end Exec

/-! ## Couplings -/

/-- What two runs have in common. -/
structure Coupling where
  /-- Nodes that may be evaluated in each other's place. -/
  node : Node → Node → Prop
  /-- Scopes that both runs may come to. -/
  shared : ScopeId → Prop
  /-- What is known of the other scopes, which neither run changes. -/
  apart : ScopeId → Option Scope → Option Scope → Prop
  console : Console → Console → Prop
  fault : Fault → Fault → Prop

namespace Coupling

variable (C : Coupling)

/-- Functions that are the same but for their bodies, which are related. -/
structure Closures (f g : Closure) : Prop where
  name : g.name = f.name
  parameters : g.parameters = f.parameters
  home : g.home = f.home
  serial : g.serial = f.serial
  body : C.node f.body g.body
  shared : C.shared f.home

inductive Values : Value → Value → Prop
  | int (n : Int64) : Values (.int n) (.int n)
  | str (s : String) : Values (.str s) (.str s)
  | function {f g : Closure} (same : C.Closures f g) : Values (.function f) (.function g)
  | intrinsic (i : Intrinsic) : Values (.intrinsic i) (.intrinsic i)
  | unit : Values .unit .unit

/-- The same names in the same order, with related values. -/
def Bindings (m m' : NameMap (Option Value)) : Prop :=
  m.entries.Forall₂ (fun e e' => e'.1 = e.1 ∧ Option.Rel C.Values e.2 e'.2) m'.entries

structure Scopes (id : ScopeId) (s s' : Scope) : Prop where
  parent : s'.parent = s.parent
  outwards : ∀ p, s.parent = some p → p < id → C.shared p
  made : s'.made = s.made
  bindings : C.Bindings s.bindings s'.bindings

structure Stores (st st' : Store) : Prop where
  size : st'.scopes.size = st.scopes.size
  /-- Scopes that are yet to come are shared. -/
  fresh : ∀ id, st.scopes.size ≤ id → C.shared id
  shared : ∀ id, C.shared id → Option.Rel (C.Scopes id) st.scopes[id]? st'.scopes[id]?
  apart : ∀ id, ¬ C.shared id → C.apart id st.scopes[id]? st'.scopes[id]?

structure Machines (m m' : Machine) : Prop where
  store : C.Stores m.store m'.store
  console : C.console m.console m'.console

inductive Stops : Stop → Stop → Prop
  | fault {f g : Fault} (same : C.fault f g) : Stops (.fault f) (.fault g)
  | outOfFuel : Stops .outOfFuel .outOfFuel

/-- Both runs return, with values that compare as given, or both stop. -/
inductive Ends {α β : Type} (same : α → β → Prop) :
    EStateM.Result Stop Machine α → EStateM.Result Stop Machine β → Prop
  | returns {a : α} {b : β} {m m' : Machine} (value : same a b) (machine : C.Machines m m') :
      Ends same (.ok a m) (.ok b m')
  | stops {e e' : Stop} {m m' : Machine} (stop : C.Stops e e') (machine : C.Machines m m') :
      Ends same (.error e m) (.error e' m')

/-- The actions end alike on related machines. -/
def Relates {α β : Type} (same : α → β → Prop) (x : Exec α) (y : Exec β) : Prop :=
  ∀ m m', C.Machines m m' → C.Ends same (x m) (y m')

/-- Children that are related as their use calls for. -/
def Children : ChildUse → Node → Node → Prop
  | .evaluated, c, c' => C.node c c'
  | .named, c, c' => c'.text = c.text
  | .parameters, c, c' => c'.children.map Node.text = c.children.map Node.text
  | .arguments, c, c' => c.children.Forall₂ C.node c'.children

/-- Both nodes have child `i`, or both lack it. -/
inductive HaveChild (use : ChildUse) (i : Nat) (n n' : Node) : Prop
  | present (c c' : Node) (left : n.children[i]? = some c) (right : n'.children[i]? = some c')
      (same : C.Children use c c')
  | missing (left : n.children[i]? = none) (right : n'.children[i]? = none)
      (same : C.fault (n.missing i) (n'.missing i))

/-- What makes related nodes do the same: they are alike where evaluation looks at them,
the faults they raise compare, and so do the answers of their consoles. -/
structure Lawful : Prop where
  tag : ∀ {n n' : Node}, C.node n n' → n'.tag = n.tag
  text : ∀ {n n' : Node}, C.node n n' → n'.text = n.text
  child : ∀ {n n' : Node} {i : Nat} {use : ChildUse}, C.node n n' →
    n.tag.childUse? i = some use → C.HaveChild use i n n'
  statements : ∀ {n n' : Node}, C.node n n' → n.tag = .program ∨ n.tag = .block →
    n.children.Forall₂ C.node n'.children
  alternative : ∀ {n n' : Node}, C.node n n' → n.tag = .conditional →
    Option.Rel C.node n.children[2]? n'.children[2]?
  fault : ∀ {n n' : Node} {cause : Cause}, C.node n n' → n.tag.raises cause = true →
    C.fault ⟨cause, n.span⟩ ⟨cause, n'.span⟩
  childFault : ∀ {n n' c c' : Node} {i : Nat} {cause : Cause}, C.node n n' →
    n.tag.raisesAt i cause = true → n.children[i]? = some c → n'.children[i]? = some c' →
    C.fault ⟨cause, c.span⟩ ⟨cause, c'.span⟩
  write : ∀ {c c' : Console} (text : String), C.console c c' →
    (c'.write text).1 = (c.write text).1 ∧ C.console (c.write text).2 (c'.write text).2
  readWord : ∀ {c c' : Console}, C.console c c' →
    c'.readWord.1 = c.readWord.1 ∧ C.console c.readWord.2 c'.readWord.2

variable {C}

/-! ## Values and bindings -/

theorem rel_cases {α β : Type} {r : α → β → Prop} {o : Option α} {o' : Option β}
    (h : Option.Rel r o o') :
    (o = none ∧ o' = none) ∨ ∃ a b, o = some a ∧ o' = some b ∧ r a b := by
  cases h with
  | none => exact .inl ⟨rfl, rfl⟩
  | some hab => exact .inr ⟨_, _, rfl, rfl, hab⟩

theorem Values.type {v w : Value} (h : C.Values v w) : w.type = v.type := by
  cases h <;> rfl

theorem Values.render {v w : Value} (h : C.Values v w) : w.render = v.render := by
  cases h with
  | function same => simp only [Value.render, same.name]
  | int | str | intrinsic | unit => rfl

theorem Bindings.insert {m m' : NameMap (Option Value)} (h : C.Bindings m m') (name : String)
    {v v' : Option Value} (hv : Option.Rel C.Values v v') :
    C.Bindings (m.insert name v) (m'.insert name v') := by
  refine .cons ⟨rfl, hv⟩ (List.rel_filter ?_ h)
  rintro ⟨k, w⟩ ⟨k', w'⟩ ⟨hkey, -⟩
  cases hkey
  exact Iff.rfl

theorem Bindings.get? {m m' : NameMap (Option Value)} (h : C.Bindings m m') (name : String) :
    Option.Rel (Option.Rel C.Values) (m.get? name) (m'.get? name) := by
  unfold Bindings at h
  unfold NameMap.get?
  generalize m.entries = entries at h
  generalize m'.entries = entries' at h
  induction h with
  | nil => exact .none
  | @cons e e' _ _ hentry _ ih =>
      obtain ⟨k, v⟩ := e
      obtain ⟨k', v'⟩ := e'
      obtain ⟨hkey, hvalue⟩ := hentry
      cases hkey
      simp only [List.lookup_cons]
      split
      · exact .some hvalue
      · exact ih

/-! ## Stores -/

namespace Stores

variable {st st' : Store} {env : ScopeId}

theorem bindings (h : C.Stores st st') (henv : C.shared env) :
    C.Bindings (st.bindings env) (st'.bindings env) := by
  unfold Store.bindings
  obtain ⟨hs, hs'⟩ | ⟨s, s', hs, hs', hscope⟩ := rel_cases (h.shared env henv)
  · rw [hs, hs']
    exact .nil
  · rw [hs, hs']
    exact hscope.bindings

theorem parent? (h : C.Stores st st') (henv : C.shared env) :
    st'.parent? env = st.parent? env := by
  unfold Store.parent?
  obtain ⟨hs, hs'⟩ | ⟨s, s', hs, hs', hscope⟩ := rel_cases (h.shared env henv)
  · rw [hs, hs']
  · rw [hs, hs', Option.bind_some, Option.bind_some, hscope.parent]

/-- The parent of a shared scope is shared. -/
theorem shared_parent {p : ScopeId} (h : C.Stores st st') (henv : C.shared env)
    (hp : st.parent? env = some p) : C.shared p := by
  have hlt := Store.parent?_lt hp
  unfold Store.parent? at hp
  obtain ⟨hs, -⟩ | ⟨s, s', hs, -, hscope⟩ := rel_cases (h.shared env henv)
  · rw [hs] at hp
    cases hp
  · rw [hs] at hp
    exact hscope.outwards p (Option.filter_eq_some_iff.1 hp).1 hlt

theorem binds (h : C.Stores st st') (henv : C.shared env) (name : String) :
    st'.binds env name = st.binds env name := by
  unfold Store.binds NameMap.contains
  obtain ⟨hv, hv'⟩ | ⟨v, v', hv, hv', -⟩ := rel_cases ((h.bindings henv).get? name)
  · rw [hv, hv']
  · rw [hv, hv']
    rfl

/-- Names have the same owner, which is shared. -/
theorem owner (h : C.Stores st st') (henv : C.shared env) (name : String) :
    st'.owner env name = st.owner env name ∧ C.shared (st.owner env name) := by
  -- Both stores take the same way outwards: a shared scope has the same names and the same
  -- parent in both, and its parent is shared.
  induction env using Nat.strongRecOn with
  | ind env ih =>
      have hparent := h.parent? henv
      unfold Store.owner
      rw [h.binds henv]
      split
      · exact ⟨rfl, henv⟩
      · split
        next p hp =>
          split
          next q hq =>
            cases hp.symm.trans (hparent.trans hq)
            exact ih p (Store.parent?_lt hq) (h.shared_parent henv hq)
          next hq => cases hp.symm.trans (hparent.trans hq)
        next hp =>
          split
          next q hq => cases hp.symm.trans (hparent.trans hq)
          next => exact ⟨rfl, henv⟩

/-- Names stand for the same, up to the bodies of functions. -/
theorem lookup (h : C.Stores st st') (henv : C.shared env) (name : String) :
    (∃ v v', st.lookup env name = .assigned v ∧ st'.lookup env name = .assigned v' ∧
        C.Values v v') ∨
      (st.lookup env name = .unassigned ∧ st'.lookup env name = .unassigned) ∨
      (st.lookup env name = .undefined ∧ st'.lookup env name = .undefined) := by
  obtain ⟨howner, hshared⟩ := h.owner henv name
  unfold Store.lookup
  rw [howner]
  obtain ⟨hv, hv'⟩ | ⟨v?, v?', hv, hv', hvalue⟩ := rel_cases ((h.bindings hshared).get? name)
  · rw [hv, hv']
    exact .inr (.inr ⟨rfl, rfl⟩)
  · rw [hv, hv']
    cases hvalue with
    | none => exact .inr (.inl ⟨rfl, rfl⟩)
    | some hvalue => exact .inl ⟨_, _, rfl, rfl, hvalue⟩

/-- A change of one shared scope. -/
theorem modify (h : C.Stores st st') (henv : C.shared env) {f f' : Scope → Scope}
    (hf : ∀ s s', C.Scopes env s s' → C.Scopes env (f s) (f' s')) :
    C.Stores (st.modify env f) (st'.modify env f') where
  size := by simpa [Store.modify] using h.size
  fresh id hid := h.fresh id (by simpa [Store.modify] using hid)
  shared id hid := by
    have hrel := h.shared id hid
    simp only [Store.getElem?_modify]
    split
    next heq =>
      subst heq
      obtain ⟨hs, hs'⟩ | ⟨s, s', hs, hs', hscope⟩ := rel_cases hrel
      · rw [hs, hs']
        exact .none
      · rw [hs, hs']
        exact .some (hf s s' hscope)
    next => exact hrel
  apart id hid := by
    have hne : env ≠ id := fun heq => hid (heq ▸ henv)
    simp only [Store.getElem?_modify, if_neg hne]
    exact h.apart id hid

theorem put (h : C.Stores st st') (henv : C.shared env) (name : String) {v v' : Option Value}
    (hv : Option.Rel C.Values v v') : C.Stores (st.put env name v) (st'.put env name v') :=
  h.modify henv fun _ _ hs => ⟨hs.parent, hs.outwards, hs.made, hs.bindings.insert name hv⟩

theorem bindAll (h : C.Stores st st') (henv : C.shared env) (names : List String)
    {vs vs' : List Value} (hvs : vs.Forall₂ C.Values vs') :
    C.Stores (st.bindAll env (names.zip vs)) (st'.bindAll env (names.zip vs')) := by
  unfold Store.bindAll
  induction names generalizing st st' vs vs' with
  | nil => exact h
  | cons name names ih =>
      cases hvs with
      | nil => exact h
      | cons hv hvs => exact ih (h.put henv name (.some hv)) hvs

/-- A new scope inside a shared one is shared. -/
theorem child (h : C.Stores st st') (henv : C.shared env) :
    C.Stores (st.child env).2 (st'.child env).2 where
  size := by simpa [Store.child] using h.size
  fresh id hid := by
    simp only [Store.child, Array.size_push] at hid
    exact h.fresh id (by omega)
  shared id hid := by
    simp only [Store.child, Array.getElem?_push, h.size]
    split
    · refine .some ⟨rfl, ?_, rfl, .nil⟩
      intro p hp _
      cases hp
      exact henv
    · exact h.shared id hid
  apart id hid := by
    have hne : id ≠ st.scopes.size := by
      rintro rfl
      exact hid (h.fresh _ (Nat.le_refl _))
    simp only [Store.child, Array.getElem?_push, h.size, if_neg hne]
    exact h.apart id hid

/-- A new function in a shared scope. -/
theorem close (h : C.Stores st st') (henv : C.shared env) (name : String)
    (parameters : List String) {body body' : Node} (hbody : C.node body body') :
    C.Closures (st.close env name parameters body).1 (st'.close env name parameters body').1 ∧
      C.Stores (st.close env name parameters body).2 (st'.close env name parameters body').2 := by
  have hmade :
      (st'.scopes[env]?.map Scope.made).getD 0 = (st.scopes[env]?.map Scope.made).getD 0 := by
    obtain ⟨hs, hs'⟩ | ⟨s, s', hs, hs', hscope⟩ := rel_cases (h.shared env henv)
    · rw [hs, hs']
    · rw [hs, hs']
      exact hscope.made
  refine ⟨⟨rfl, rfl, rfl, hmade, hbody, henv⟩, h.modify henv ?_⟩
  intro s s' hs
  exact ⟨hs.parent, hs.outwards, congrArg (· + 1) hs.made, hs.bindings⟩

/-- The store that a run starts with holds no functions, so it is related to itself. -/
theorem initial (hshared : ∀ id, C.shared id) : C.Stores .initial .initial := by
  have hempty : C.Stores .empty .empty := by
    refine ⟨rfl, fun id _ => hshared id, fun id _ => ?_, fun id hid => absurd (hshared id) hid⟩
    unfold Store.empty
    rw [Array.getElem?_singleton]
    split
    · exact .some ⟨rfl, fun p _ _ => hshared p, rfl, .nil⟩
    · exact .none
  unfold Store.initial
  generalize Intrinsic.all = intrinsics
  generalize Store.empty = st at hempty
  induction intrinsics generalizing st with
  | nil => exact hempty
  | cons i _ ih => exact ih _ (hempty.put (hshared _) i.name (.some (.intrinsic i)))

end Stores

/-! ## Actions -/

namespace Relates

variable {α β γ δ : Type} {same : α → β → Prop} {same' : γ → δ → Prop} {x : Exec α} {y : Exec β}

theorem pure {a : α} {b : β} (h : same a b) : C.Relates same (Pure.pure a) (Pure.pure b) :=
  fun _ _ hm => .returns h hm

theorem stop {e e' : Stop} (h : C.Stops e e') : C.Relates same (throw e) (throw e') :=
  fun _ _ hm => .stops h hm

theorem fail {cause cause' : Cause} {span span' : Span}
    (h : C.fault ⟨cause, span⟩ ⟨cause', span'⟩) :
    C.Relates same (Exec.fail cause span) (Exec.fail cause' span') :=
  stop (.fault h)

/-- One action after another. -/
theorem bind {f : α → Exec γ} {g : β → Exec δ} (hx : C.Relates same x y)
    (hf : ∀ a b, same a b → C.Relates same' (f a) (g b)) :
    C.Relates same' (x >>= f) (y >>= g) := by
  intro m m' hm
  have hends := hx m m' hm
  simp only [Bind.bind, EStateM.bind]
  generalize x m = r at hends
  generalize y m' = r' at hends
  cases hends with
  | returns value machine => exact hf _ _ value _ _ machine
  | stops stop machine => exact .stops stop machine

/-- Related actions leave related machines. -/
theorem final (h : C.Relates same x y) {m m' : Machine} (hm : C.Machines m m') :
    C.Machines (x.final m) (y.final m') := by
  have hends := h m m' hm
  unfold Exec.final
  generalize x m = r at hends
  generalize y m' = r' at hends
  cases hends with
  | returns _ machine | stops _ machine => exact machine

/-- Related actions both return or both stop. -/
theorem outcome (h : C.Relates same x y) {m m' : Machine} (hm : C.Machines m m') :
    (∃ a b, x.outcome m = .ok a ∧ y.outcome m' = .ok b ∧ same a b) ∨
      ∃ e e', x.outcome m = .error e ∧ y.outcome m' = .error e' ∧ C.Stops e e' := by
  have hends := h m m' hm
  unfold Exec.outcome
  generalize x m = r at hends
  generalize y m' = r' at hends
  cases hends with
  | returns value _ => exact .inl ⟨_, _, rfl, rfl, value⟩
  | stops stop _ => exact .inr ⟨_, _, rfl, rfl, stop⟩

/-- An action that also yields an answer to act on. -/
theorem answer {f : Machine → α × Machine} {g : Machine → β × Machine}
    (h : ∀ m m', C.Machines m m' → same (f m).1 (g m').1 ∧ C.Machines (f m).2 (g m').2) :
    C.Relates same (MonadStateOf.modifyGet f) (MonadStateOf.modifyGet g) :=
  fun m m' hm => .returns (h m m' hm).1 (h m m' hm).2

theorem updateStore {f g : Store → Store}
    (h : ∀ st st', C.Stores st st' → C.Stores (f st) (g st')) :
    C.Relates (fun _ _ => True) (Exec.updateStore f) (Exec.updateStore g) :=
  answer fun _ _ hm => ⟨trivial, h _ _ hm.store, hm.console⟩

theorem newScope {env : ScopeId} (henv : C.shared env) :
    C.Relates (fun id id' => id = id' ∧ C.shared id) (Exec.newScope env) (Exec.newScope env) := by
  refine answer fun m m' hm => ⟨⟨hm.store.size.symm, ?_⟩, hm.store.child henv, hm.console⟩
  exact hm.store.fresh _ (Nat.le_refl _)

theorem newFunction {env : ScopeId} (henv : C.shared env) (name : String)
    (parameters : List String) {body body' : Node} (hbody : C.node body body') :
    C.Relates C.Closures (Exec.newFunction env name parameters body)
      (Exec.newFunction env name parameters body') := by
  refine answer fun m m' hm => ?_
  obtain ⟨hclosure, hstore⟩ := hm.store.close henv name parameters hbody
  exact ⟨hclosure, hstore, hm.console⟩

theorem readName {env : ScopeId} (henv : C.shared env) (name : String) {span span' : Span}
    (hunassigned : C.fault ⟨.unassignedName name, span⟩ ⟨.unassignedName name, span'⟩)
    (hundefined : C.fault ⟨.undefinedName name, span⟩ ⟨.undefinedName name, span'⟩) :
    C.Relates C.Values (Exec.readName env name span) (Exec.readName env name span') := by
  have hget : C.Relates C.Machines get get := fun _ _ hm => .returns hm hm
  refine hget.bind fun m m' hm => ?_
  obtain ⟨v, v', hv, hv', hsame⟩ | ⟨hv, hv'⟩ | ⟨hv, hv'⟩ := hm.store.lookup henv name
  · rw [hv, hv']
    exact pure hsame
  · rw [hv, hv']
    exact fail hunassigned
  · rw [hv, hv']
    exact fail hundefined

theorem write (h : C.Lawful) (text : String) {span span' : Span}
    (hfault : ∀ why, C.fault ⟨.outputFailed why, span⟩ ⟨.outputFailed why, span'⟩) :
    C.Relates (fun _ _ => True) (Exec.write text span) (Exec.write text span') := by
  have hwrite : C.Relates Eq
      (modifyGet fun m =>
        ((m.console.write text).1, { m with console := (m.console.write text).2 }) : Exec _)
      (modifyGet fun m =>
        ((m.console.write text).1, { m with console := (m.console.write text).2 }) : Exec _) := by
    refine answer fun m m' hm => ?_
    obtain ⟨hanswer, hconsole⟩ := h.write text hm.console
    exact ⟨hanswer.symm, hm.store, hconsole⟩
  refine hwrite.bind ?_
  rintro outcome _ rfl
  cases outcome with
  | ok u => exact pure trivial
  | error why => exact fail (hfault why)

theorem readInteger (h : C.Lawful) {span span' : Span}
    (hfailed : ∀ why, C.fault ⟨.inputFailed why, span⟩ ⟨.inputFailed why, span'⟩)
    (hended : C.fault ⟨.inputEnded, span⟩ ⟨.inputEnded, span'⟩)
    (hword : ∀ word, C.fault ⟨.notAnInteger word, span⟩ ⟨.notAnInteger word, span'⟩) :
    C.Relates Eq (Exec.readInteger span) (Exec.readInteger span') := by
  have hread : C.Relates Eq
      (modifyGet fun m => (m.console.readWord.1, { m with console := m.console.readWord.2 }) :
        Exec _)
      (modifyGet fun m => (m.console.readWord.1, { m with console := m.console.readWord.2 }) :
        Exec _) := by
    refine answer fun m m' hm => ?_
    obtain ⟨hanswer, hconsole⟩ := h.readWord hm.console
    exact ⟨hanswer.symm, hm.store, hconsole⟩
  refine hread.bind ?_
  rintro outcome _ rfl
  rcases outcome with why | word?
  · exact fail (hfailed why)
  cases word? with
  | none => exact fail hended
  | some word =>
      dsimp only
      split
      · exact pure rfl
      · exact fail (hword word)

/-- Child `i` of a node, called for as its use says. -/
theorem kid {n n' : Node} {i : Nat} {use : ChildUse} (h : C.HaveChild use i n n') :
    C.Relates (fun c c' => (n.children[i]? = some c ∧ n'.children[i]? = some c') ∧
      C.Children use c c') (Exec.kid n i) (Exec.kid n' i) := by
  unfold Exec.kid Node.kid
  cases h with
  | present c c' left right same =>
      rw [left, right]
      exact pure ⟨⟨rfl, rfl⟩, same⟩
  | missing left right same =>
      rw [left, right]
      exact stop (.fault same)

/-- Run a body as long as a test holds. -/
theorem repeatWhile {test test' : Exec Bool} {body body' : Exec Unit}
    (htest : C.Relates Eq test test')
    (hbody : C.Relates (fun _ _ => True) body body') (rounds : Nat) :
    C.Relates (fun _ _ => True) (Exec.repeatWhile test body rounds)
      (Exec.repeatWhile test' body' rounds) := by
  induction rounds with
  | zero => exact stop .outOfFuel
  | succ rounds ih =>
      refine htest.bind ?_
      rintro goes _ rfl
      cases goes with
      | false => exact pure trivial
      | true => exact hbody.bind fun _ _ _ => ih

end Relates

/-! ## Constructs

Each construct is evaluated by way of evaluation of what nests in it. -/

/-- Evaluating related nodes in a shared scope ends alike. -/
def Evaluates (C : Coupling) (run run' : Node → ScopeId → Exec Value) : Prop :=
  ∀ {n n' : Node} {env : ScopeId}, C.node n n' → C.shared env →
    C.Relates C.Values (run n env) (run' n' env)

namespace Evaluates

variable {run run' : Node → ScopeId → Exec Value} {n n' : Node} {env : ScopeId}

theorem operand (h : C.Evaluates run run') (hn : C.node n n') (henv : C.shared env)
    (hfault : ∀ t, C.fault ⟨.nonNumericOperand t, n.span⟩ ⟨.nonNumericOperand t, n'.span⟩) :
    C.Relates Eq (Exec.operand run n env) (Exec.operand run' n' env) := by
  refine (h hn henv).bind fun v v' hv => ?_
  cases hv with
  | int n => exact .pure rfl
  | str | function | intrinsic | unit => exact .stop (.fault (hfault _))

theorem binary (hC : C.Lawful) (h : C.Evaluates run run') {op : Operator} (hn : C.node n n')
    (htag : n.tag = .binary op) (henv : C.shared env) :
    C.Relates C.Values (Exec.binary run op n env) (Exec.binary run' op n' env) := by
  have hchild : ∀ i, i = 0 ∨ i = 1 → C.HaveChild .evaluated i n n' := by
    rintro i (rfl | rfl)
    · exact hC.child hn (by rw [htag]; rfl)
    · exact hC.child hn (by rw [htag]; rfl)
  have hfault : ∀ i, i = 0 ∨ i = 1 → ∀ t, n.tag.raisesAt i (.nonNumericOperand t) = true := by
    rintro i (rfl | rfl) t
    · rw [htag]; rfl
    · rw [htag]; rfl
  refine (Relates.kid (hchild 0 (.inl rfl))).bind fun left left' hleft => ?_
  refine (Relates.kid (hchild 1 (.inr rfl))).bind fun right right' hright => ?_
  have hevalLeft := h.operand hleft.2 henv fun t =>
    hC.childFault hn (hfault 0 (.inl rfl) t) hleft.1.1 hleft.1.2
  have hevalRight := h.operand hright.2 henv fun t =>
    hC.childFault hn (hfault 1 (.inr rfl) t) hright.1.1 hright.1.2
  refine hevalLeft.bind ?_
  rintro l _ rfl
  rcases op with op | op | op
  · refine hevalRight.bind ?_
    rintro r _ rfl
    cases hcompute : op.compute l r with
    | ok v => exact .pure (.int v)
    | error cause =>
        refine .fail (hC.fault hn ?_)
        rw [htag]
        exact Tag.raises_of_compute hcompute
  · refine hevalRight.bind ?_
    rintro r _ rfl
    exact .pure (.int _)
  · dsimp only
    split
    · exact .pure (.int _)
    · refine hevalRight.bind ?_
      rintro r _ rfl
      exact .pure (.int _)

/-- Statements one after another. -/
theorem sequence (h : C.Evaluates run run') {ns ns' : List Node} (hns : ns.Forall₂ C.node ns')
    (henv : C.shared env) :
    C.Relates C.Values (Exec.sequence run ns env) (Exec.sequence run' ns' env) := by
  suffices hall : ∀ v v', C.Values v v' → C.Relates C.Values
      (ns.foldlM (fun _ n => run n env) v) (ns'.foldlM (fun _ n => run' n env) v') from
    hall _ _ .unit
  induction hns with
  | nil => exact fun v v' hv => .pure hv
  | cons hn _ ih => exact fun v v' _ => (h hn henv).bind ih

theorem inNewScope (h : C.Evaluates run run') (hn : C.node n n') (henv : C.shared env) :
    C.Relates C.Values (Exec.inNewScope run n env) (Exec.inNewScope run' n' env) := by
  refine (Relates.newScope henv).bind ?_
  rintro inner _ ⟨rfl, hinner⟩
  exact h hn hinner

theorem condition (h : C.Evaluates run run') (construct : Keyword) (hn : C.node n n')
    (henv : C.shared env)
    (hfault : ∀ t, C.fault ⟨.nonNumericCondition construct t, n.span⟩
      ⟨.nonNumericCondition construct t, n'.span⟩) :
    C.Relates Eq (Exec.condition run construct n env)
      (Exec.condition run' construct n' env) := by
  refine (h hn henv).bind fun v v' hv => ?_
  cases hv with
  | int n => exact .pure rfl
  | str | function | intrinsic | unit => exact .fail (hfault _)

theorem callFunction (h : C.Evaluates run run') {f g : Closure} {vs vs' : List Value}
    {span span' : Span} (hf : C.Closures f g) (hvs : vs.Forall₂ C.Values vs')
    (hfault : ∀ callee wanted got, C.fault ⟨.argumentCount callee wanted got, span⟩
      ⟨.argumentCount callee wanted got, span'⟩) :
    C.Relates C.Values (Exec.callFunction run f vs span) (Exec.callFunction run' g vs' span') := by
  unfold Exec.callFunction
  rw [hf.name, hf.parameters, hf.home, ← hvs.length_eq]
  split
  · refine (Relates.newScope hf.shared).bind ?_
    rintro frame _ ⟨rfl, hframe⟩
    refine (Relates.updateStore fun _ _ hst => hst.bindAll hframe _ hvs).bind fun _ _ _ => ?_
    exact h hf.body hframe
  · exact .fail (hfault _ _ _)

theorem callIntrinsic (hC : C.Lawful) {i : Intrinsic} {vs vs' : List Value} (hn : C.node n n')
    (htag : n.tag = .call) (hvs : vs.Forall₂ C.Values vs') :
    C.Relates C.Values (Exec.callIntrinsic i vs n.span) (Exec.callIntrinsic i vs' n'.span) := by
  have hfault : ∀ {cause}, Tag.call.raises cause = true →
      C.fault ⟨cause, n.span⟩ ⟨cause, n'.span⟩ := fun hcause => hC.fault hn (htag ▸ hcause)
  have hcount : C.Relates C.Values
      (Exec.fail (.argumentCount i.name i.arity vs.length) n.span)
      (Exec.fail (.argumentCount i.name i.arity vs'.length) n'.span) := by
    rw [← hvs.length_eq]
    exact .fail (hfault rfl)
  cases i with
  | print | println =>
      cases hvs with
      | nil => exact hcount
      | cons hv hrest =>
          cases hrest with
          | nil =>
              simp only [Exec.callIntrinsic, Exec.callIntrinsicWith, hv.render]
              refine (Relates.write hC _ fun _ => hfault rfl).bind fun _ _ _ => .pure .unit
          | cons _ _ => exact hcount
  | readint =>
      cases hvs with
      | nil =>
          refine (Relates.readInteger hC (fun _ => hfault rfl) (hfault rfl)
            fun _ => hfault rfl).bind ?_
          rintro v _ rfl
          exact .pure (.int v)
      | cons _ _ => exact hcount

/-- Arguments from left to right. -/
theorem arguments (h : C.Evaluates run run') {ns ns' : List Node} (hns : ns.Forall₂ C.node ns')
    (henv : C.shared env) :
    C.Relates (List.Forall₂ C.Values) (ns.mapM fun n => run n env)
      (ns'.mapM fun n => run' n env) := by
  induction hns with
  | nil => exact .pure .nil
  | cons hn _ ih =>
      rw [List.mapM_cons, List.mapM_cons]
      refine (h hn henv).bind fun v v' hv => ih.bind fun vs vs' hvs => ?_
      exact .pure (.cons hv hvs)

theorem call (hC : C.Lawful) (h : C.Evaluates run run') (hn : C.node n n') (htag : n.tag = .call)
    (henv : C.shared env) :
    C.Relates C.Values (Exec.call run n env) (Exec.call run' n' env) := by
  have hfault : ∀ {cause}, Tag.call.raises cause = true →
      C.fault ⟨cause, n.span⟩ ⟨cause, n'.span⟩ := fun hcause => hC.fault hn (htag ▸ hcause)
  unfold Exec.call Exec.callWith
  rw [hC.text hn]
  refine (Relates.readName henv _ (hfault rfl) (hfault rfl)).bind fun callee callee' hcallee => ?_
  refine (Relates.kid (hC.child hn (by rw [htag]; rfl))).bind fun list list' hlist => ?_
  refine (h.arguments hlist.2 henv).bind fun vs vs' hvs => ?_
  cases hcallee with
  | function hf => exact h.callFunction hf hvs fun _ _ _ => hfault rfl
  | intrinsic i => exact callIntrinsic hC hn htag hvs
  | int | str | unit => exact .fail (hfault rfl)

theorem definition (hC : C.Lawful) (hn : C.node n n') (htag : n.tag = .definition)
    (henv : C.shared env) :
    C.Relates C.Values (Exec.definition n env) (Exec.definition n' env) := by
  refine (Relates.kid (hC.child hn (by rw [htag]; rfl))).bind fun target target' htarget => ?_
  have htext : target'.text = target.text := htarget.2
  rw [htext]
  refine (Relates.updateStore fun _ _ hst => hst.put henv _ .none).bind fun _ _ _ => ?_
  exact .pure .unit

theorem assignment (hC : C.Lawful) (h : C.Evaluates run run') (hn : C.node n n')
    (htag : n.tag = .assignment) (henv : C.shared env) :
    C.Relates C.Values (Exec.assignment run n env) (Exec.assignment run' n' env) := by
  refine (Relates.kid (hC.child hn (by rw [htag]; rfl))).bind fun target target' htarget => ?_
  refine (Relates.kid (hC.child hn (by rw [htag]; rfl))).bind fun source source' hsource => ?_
  have htext : target'.text = target.text := htarget.2
  refine (h hsource.2 henv).bind fun v v' hv => ?_
  have hassign : C.Relates (fun _ _ => True)
      (Exec.updateStore fun st => st.assign env target.text v)
      (Exec.updateStore fun st => st.assign env target'.text v') := by
    rw [htext]
    refine Relates.updateStore fun st st' hst => ?_
    obtain ⟨howner, hshared⟩ := hst.owner henv target.text
    unfold Store.assign
    rw [howner]
    exact hst.put hshared _ (.some hv)
  exact hassign.bind fun _ _ _ => .pure hv

theorem conditional (hC : C.Lawful) (h : C.Evaluates run run') (hn : C.node n n')
    (htag : n.tag = .conditional) (henv : C.shared env) :
    C.Relates C.Values (Exec.conditional run n env) (Exec.conditional run' n' env) := by
  refine (Relates.kid (hC.child hn (by rw [htag]; rfl))).bind fun test test' htest => ?_
  have htestFault : ∀ t, n.tag.raisesAt 0 (.nonNumericCondition .conditional t) = true := by
    intro t
    rw [htag]
    rfl
  refine (h.condition .conditional htest.2 henv fun t =>
    hC.childFault hn (htestFault t) htest.1.1 htest.1.2).bind ?_
  rintro goes _ rfl
  cases goes with
  | true =>
      refine (Relates.kid (hC.child hn (by rw [htag]; rfl))).bind fun block block' hblock => ?_
      exact h.inNewScope hblock.2 henv
  | false =>
      simp only [Bool.false_eq_true, if_false]
      obtain ⟨hc, hc'⟩ | ⟨c, c', hc, hc', hrel⟩ := rel_cases (hC.alternative hn htag)
      · rw [hc, hc']
        exact .pure .unit
      · rw [hc, hc']
        exact h hrel henv

theorem loop (hC : C.Lawful) (h : C.Evaluates run run') (rounds : Nat) (hn : C.node n n')
    (htag : n.tag = .loop) (henv : C.shared env) :
    C.Relates C.Values (Exec.loop run rounds n env) (Exec.loop run' rounds n' env) := by
  refine (Relates.kid (hC.child hn (by rw [htag]; rfl))).bind fun test test' htest => ?_
  refine (Relates.kid (hC.child hn (by rw [htag]; rfl))).bind fun block block' hblock => ?_
  have htestFault : ∀ t, n.tag.raisesAt 0 (.nonNumericCondition .loop t) = true := by
    intro t
    rw [htag]
    rfl
  have hcondition := h.condition .loop htest.2 henv fun t =>
    hC.childFault hn (htestFault t) htest.1.1 htest.1.2
  have hround : C.Relates (fun _ _ => True) (discard (Exec.inNewScope run block env))
      (discard (Exec.inNewScope run' block' env)) :=
    (h.inNewScope hblock.2 henv).bind fun _ _ _ => .pure trivial
  exact (hcondition.repeatWhile hround rounds).bind fun _ _ _ => .pure .unit

theorem function (hC : C.Lawful) (hn : C.node n n') (htag : n.tag = .function)
    (henv : C.shared env) :
    C.Relates C.Values (Exec.function n env) (Exec.function n' env) := by
  refine (Relates.kid (hC.child hn (by rw [htag]; rfl))).bind fun params params' hparams => ?_
  refine (Relates.kid (hC.child hn (by rw [htag]; rfl))).bind fun body body' hbody => ?_
  have htexts : params'.children.map Node.text = params.children.map Node.text := hparams.2
  rw [htexts, hC.text hn]
  refine (Relates.newFunction henv _ _ hbody.2).bind fun f g hf => ?_
  refine (Relates.updateStore fun _ _ hst => hst.put henv _ (.some (.function hf))).bind
    fun _ _ _ => ?_
  exact .pure .unit

theorem number (hC : C.Lawful) (hn : C.node n n') (htag : n.tag = .number) :
    C.Relates C.Values (Exec.number n) (Exec.number n') := by
  unfold Exec.number
  rw [hC.text hn]
  split
  · exact .pure (.int _)
  · exact .fail (hC.fault hn (by rw [htag]; rfl))

/-- One level of evaluation ends alike if the level below does. -/
theorem step (hC : C.Lawful) (h : C.Evaluates run run') (rounds : Nat) :
    C.Evaluates (Exec.step run rounds) (Exec.step run' rounds) := by
  intro n n' env hn henv
  unfold Exec.step
  rw [hC.tag hn]
  cases htag : n.tag with
  | number => exact number hC hn htag
  | text =>
      rw [hC.text hn]
      exact .pure (.str _)
  | name =>
      rw [hC.text hn]
      exact .readName henv _ (hC.fault hn (by rw [htag]; rfl)) (hC.fault hn (by rw [htag]; rfl))
  | binary op => exact h.binary hC hn htag henv
  | statement =>
      refine (Relates.kid (hC.child hn (by rw [htag]; rfl))).bind fun inside inside' hinside => ?_
      exact h hinside.2 henv
  | program => exact h.sequence (hC.statements hn (.inl htag)) henv
  | block => exact h.sequence (hC.statements hn (.inr htag)) henv
  | definition => exact definition hC hn htag henv
  | assignment => exact h.assignment hC hn htag henv
  | conditional => exact h.conditional hC hn htag henv
  | alternative =>
      refine (Relates.kid (hC.child hn (by rw [htag]; rfl))).bind fun block block' hblock => ?_
      exact h.inNewScope hblock.2 henv
  | loop => exact h.loop hC rounds hn htag henv
  | function => exact function hC hn htag henv
  | call => exact h.call hC hn htag henv
  | arguments | parameters => exact .fail (hC.fault hn (by rw [htag]; rfl))

end Evaluates

/-- Evaluating related nodes in a shared scope ends alike, whatever the fuel. -/
theorem Lawful.eval (hC : C.Lawful) (fuel : Nat) :
    C.Evaluates (ScopeLang.eval fuel) (ScopeLang.eval fuel) := by
  induction fuel with
  | zero => exact fun _ _ => .stop .outOfFuel
  | succ fuel ih => exact ih.step hC fuel

end Coupling

end ScopeLang
