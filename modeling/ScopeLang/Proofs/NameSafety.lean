-- SUMMARY: Programs whose names resolve never come upon an undefined name when they run.
import ScopeLang.Program
import ScopeLang.Proofs.Resolution
import ScopeLang.Proofs.RoundTrip
import ScopeLang.Proofs.Scopes

/-! # Resolved programs find their names

Resolution walks each node once, with a table of the regions around it, and
evaluation may come to the node any number of times, in any scope that the run
has created for it. `Store.Covers` ties the two together: every name that the
table sees is defined around the scope. Functions carry such a table from where
they were created, and it keeps covering their home because stores only grow.

Assigning to an undefined name is no fault of its own, so the statement that
every use of a name finds it defined is made with `strictEval`, which stops at
each use of a name that is not defined. On resolved programs it does what `eval`
does.
-/

namespace ScopeLang

/-! ## Strict evaluation -/

namespace Exec

/-- Stop unless some scope from `env` outwards binds the name. -/
def requireDefined (env : ScopeId) (name : String) (span : Span) : Exec Unit := do
  if (← get).store.defines env name then return () else fail (.undefinedName name) span

section Strict

variable (eval : Node → ScopeId → Exec Value)

/-- An assignment whose target must be defined by the time it is assigned. -/
def strictAssignment (n : Node) (env : ScopeId) : Exec Value :=
  assignmentWith eval (fun target v => do
    requireDefined env target.text target.span
    updateStore fun st => st.assign env target.text v) n env

/-- One level of evaluation that stops at every use of a name that is not defined. -/
def strictStep (rounds : Nat) (n : Node) (env : ScopeId) : Exec Value :=
  match n.tag with
  | .name | .call => do
    requireDefined env n.text n.span
    step eval rounds n env
  | .assignment => strictAssignment eval n env
  | _ => step eval rounds n env

end Strict

end Exec

/-- Evaluate a node in a scope, stopping at every use of a name that is not defined. -/
def strictEval : Nat → Node → ScopeId → Exec Value
  | 0, _, _ => throw .outOfFuel
  | fuel + 1, n, env => Exec.strictStep (strictEval fuel) fuel n env

/-- Evaluate a tree in the global scope, stopping at every use of a name that is not
defined. -/
def strictExecute (fuel : Nat) (root : Node) : Exec Value :=
  strictEval fuel root Store.globalId

/-! ## Tables and scopes -/

/-- Every name that the table sees is defined around the scope. -/
structure Store.Covers (st : Store) (env : ScopeId) (t : SymbolTable) : Prop where
  inside : env < st.scopes.size
  defines : ∀ name, t.sees name = true → st.defines env name = true

/-- The body of the function resolves in a table of its parameters and of names that
its home has defined around it. -/
def Closure.Resolved (st : Store) (f : Closure) : Prop :=
  WellFormed .unrestricted .block f.body ∧ ∃ (t t' : SymbolTable) (parameters : List Node),
    parameters.map Node.text = f.parameters ∧ st.Covers f.home t ∧
      ((t.push .function).declareParameters parameters).walk f.body = .ok t'

/-- The value is no function, or one whose body resolves. -/
def Value.Resolved (st : Store) : Value → Prop
  | .function f => f.Resolved st
  | _ => True

/-- Every value that is bound is resolved. -/
def Store.Resolved (st : Store) : Prop :=
  ∀ id name v, (st.bindings id).get? name = some (some v) → v.Resolved st

section Growth

variable {st st' : Store} {env : ScopeId} {t : SymbolTable}

theorem Store.Covers.mono (h : st.Covers env t) (hext : st.Extends st') : st'.Covers env t where
  inside := Nat.lt_of_lt_of_le h.inside hext.size
  defines name hname := hext.defines h.inside (h.defines name hname)

theorem Closure.Resolved.mono {f : Closure} (h : f.Resolved st) (hext : st.Extends st') :
    f.Resolved st' := by
  obtain ⟨hbody, t, t', parameters, hparameters, hcovers, hwalk⟩ := h
  exact ⟨hbody, t, t', parameters, hparameters, hcovers.mono hext, hwalk⟩

theorem Value.Resolved.mono {v : Value} (h : v.Resolved st) (hext : st.Extends st') :
    v.Resolved st' := by
  cases v with
  | function f => exact Closure.Resolved.mono h hext
  | int | str | intrinsic | unit => trivial

/-- A new scope is covered as its parent is. -/
theorem Store.Covers.child (h : st.Covers env t) (kind : RegionKind) :
    (st.child env).2.Covers st.scopes.size (t.push kind) where
  inside := by simp [Store.child]
  defines name hname := by
    rw [SymbolTable.sees_push] at hname
    exact Store.defines_child h.inside (h.defines name hname)

/-- A declaration is covered once its name is bound. -/
theorem Store.Covers.declare (h : st.Covers env t) {s : Symbol}
    (hbinds : st.binds env s.name = true) : st.Covers env (t.declare s) where
  inside := h.inside
  defines name hname := by
    obtain rfl | hname := SymbolTable.sees_declare.1 hname
    · exact Store.defines_of_binds hbinds
    · exact h.defines name hname

theorem Store.Covers.declareParameters (h : st.Covers env t) {parameters : List Node}
    (hbinds : ∀ name ∈ parameters.map Node.text, st.binds env name = true) :
    st.Covers env (t.declareParameters parameters) where
  inside := h.inside
  defines name hname := by
    obtain hname | hname := SymbolTable.sees_declareParameters.1 hname
    · exact Store.defines_of_binds (hbinds name hname)
    · exact h.defines name hname

/-- Resolved values stay so, whatever is bound. -/
theorem Store.Resolved.put (h : st.Resolved) {id : ScopeId} {name : String} {v? : Option Value}
    (hv : ∀ v, v? = some v → v.Resolved (st.put id name v?)) :
    (st.put id name v?).Resolved := by
  intro j other v hget
  rw [Store.get?_put] at hget
  split at hget
  · exact hv v (Option.some.inj hget)
  · exact (h j other v hget).mono (.put st id name v?)

theorem Store.Resolved.bindAll (h : st.Resolved) {id : ScopeId}
    {pairs : List (String × Value)} (hvalues : ∀ v ∈ pairs.map Prod.snd, v.Resolved st) :
    (st.bindAll id pairs).Resolved := by
  intro j name v hget
  refine Value.Resolved.mono ?_ (.bindAll st id pairs)
  obtain hold | hnew := Store.get?_bindAll hget
  · exact h j name v hold
  · exact hvalues v hnew

theorem Store.Resolved.child (h : st.Resolved) (p : ScopeId) : (st.child p).2.Resolved := by
  intro j name v hget
  rw [Store.bindings_child] at hget
  exact (h j name v hget).mono (.child st p)

theorem Store.Resolved.close (h : st.Resolved) (home : ScopeId) (spelling : String)
    (parameters : List String) (body : Node) :
    (st.close home spelling parameters body).2.Resolved := by
  intro j name v hget
  rw [Store.bindings_close] at hget
  exact (h j name v hget).mono (.close st home spelling parameters body)

end Growth

/-! ## Strict and plain evaluation side by side -/

/-- The store of the second machine grew from that of the first, and is resolved. -/
structure Machine.Keeps (m m' : Machine) : Prop where
  grows : m.store.Extends m'.store
  resolved : m'.store.Resolved

theorem Machine.Keeps.refl {m : Machine} (h : m.store.Resolved) : m.Keeps m :=
  ⟨.refl _, h⟩

theorem Machine.Keeps.trans {m m' m'' : Machine} (h : m.Keeps m') (h' : m'.Keeps m'') :
    m.Keeps m'' :=
  ⟨h.grows.trans h'.grows, h'.resolved⟩

/-- The reason to stop is not an undefined name. -/
def Stop.FindsNames : Stop → Prop
  | .fault f => f.code ≠ .undefinedName
  | .outOfFuel => True

theorem Exec.bind_of_ok {α β : Type} {x : Exec α} {f : α → Exec β} {a : α} {m m' : Machine}
    (h : x m = .ok a m') : (x >>= f) m = f a m' := by
  simp only [Bind.bind, EStateM.bind, h]

theorem Exec.bind_of_error {α β : Type} {x : Exec α} {f : α → Exec β} {e : Stop}
    {m m' : Machine} (h : x m = .error e m') : (x >>= f) m = .error e m' := by
  simp only [Bind.bind, EStateM.bind, h]

/-- Reading a name leaves the machine as it is. -/
theorem Exec.readName_eq (env : ScopeId) (name : String) (span : Span) (m : Machine) :
    readName env name span m = match m.store.lookup env name with
      | .assigned v => .ok v m
      | .unassigned => .error (.fault ⟨.unassignedName name, span⟩) m
      | .undefined => .error (.fault ⟨.undefinedName name, span⟩) m := by
  have hget : (get : Exec Machine) m = .ok m m := rfl
  rw [readName, bind_of_ok hget]
  cases m.store.lookup env name <;> rfl

/-- Both actions do the same on a machine. Either they return, with what is promised of
the value and the store, or they stop for another reason than an undefined name. -/
inductive Ensures {α : Type} (x y : Exec α) (m : Machine) (post : α → Store → Prop) : Prop
  | returns (a : α) (m' : Machine) (strict : x m = .ok a m') (run : y m = .ok a m')
      (keeps : m.Keeps m') (holds : post a m'.store)
  | stops (e : Stop) (m' : Machine) (strict : x m = .error e m') (run : y m = .error e m')
      (keeps : m.Keeps m') (safe : e.FindsNames)

namespace Ensures

variable {α β : Type} {x y : Exec α} {m : Machine} {post post' : α → Store → Prop}
  {after : β → Store → Prop}

theorem pure {a : α} (hm : m.store.Resolved) (h : post a m.store) :
    Ensures (Pure.pure a) (Pure.pure a) m post :=
  .returns a m rfl rfl (.refl hm) h

theorem fail {cause : Cause} {span : Span} (hm : m.store.Resolved)
    (hcode : cause.code ≠ .undefinedName) :
    Ensures (Exec.fail cause span) (Exec.fail cause span) m post :=
  .stops _ m rfl rfl (.refl hm) hcode

theorem weaken (h : Ensures x y m post)
    (hpost : ∀ a m', m.Keeps m' → post a m'.store → post' a m'.store) :
    Ensures x y m post' := by
  cases h with
  | returns a m' strict run keeps holds =>
      exact .returns a m' strict run keeps (hpost a m' keeps holds)
  | stops e m' strict run keeps safe => exact .stops e m' strict run keeps safe

/-- One action after another. -/
theorem bind {f g : α → Exec β} (hx : Ensures x y m post)
    (hf : ∀ a m', m.Keeps m' → post a m'.store → Ensures (f a) (g a) m' after) :
    Ensures (x >>= f) (y >>= g) m after := by
  cases hx with
  | stops e m' strict run keeps safe =>
      exact .stops e m' (Exec.bind_of_error strict) (Exec.bind_of_error run) keeps safe
  | returns a m' strict run keeps holds =>
      cases hf a m' keeps holds with
      | stops e m'' strict' run' keeps' safe =>
          exact .stops e m'' ((Exec.bind_of_ok strict).trans strict')
            ((Exec.bind_of_ok run).trans run') (keeps.trans keeps') safe
      | returns b m'' strict' run' keeps' holds' =>
          exact .returns b m'' ((Exec.bind_of_ok strict).trans strict')
            ((Exec.bind_of_ok run).trans run') (keeps.trans keeps') holds'

theorem strict_eq (h : Ensures x y m post) : x m = y m := by
  cases h with
  | returns a m' strict run keeps holds => exact strict.trans run.symm
  | stops e m' strict run keeps safe => exact strict.trans run.symm

theorem keeps_of_ok {m' : Machine} {a : α} (h : Ensures x y m post) (hrun : y m = .ok a m') :
    m.Keeps m' := by
  cases h with
  | returns b m₁ strict run keeps holds =>
      cases run.symm.trans hrun
      exact keeps
  | stops e m₁ strict run keeps safe => cases run.symm.trans hrun

theorem keeps_of_error {m' : Machine} {e : Stop} (h : Ensures x y m post)
    (hrun : y m = .error e m') : m.Keeps m' ∧ e.FindsNames := by
  cases h with
  | returns b m₁ strict run keeps holds => cases run.symm.trans hrun
  | stops e m₁ strict run keeps safe =>
      cases run.symm.trans hrun
      exact ⟨keeps, safe⟩

/-- A change of the store. -/
theorem updateStore {f : Store → Store} {post : Unit → Store → Prop}
    (hext : m.store.Extends (f m.store)) (hresolved : (f m.store).Resolved)
    (h : post () (f m.store)) :
    Ensures (Exec.updateStore f) (Exec.updateStore f) m post :=
  .returns () { m with store := f m.store } rfl rfl ⟨hext, hresolved⟩ h

/-- A new scope. -/
theorem newScope {p : ScopeId} (hm : m.store.Resolved) :
    Ensures (Exec.newScope p) (Exec.newScope p) m
      fun id st => id = m.store.scopes.size ∧ st = (m.store.child p).2 :=
  .returns _ { m with store := (m.store.child p).2 } rfl rfl ⟨.child _ _, hm.child p⟩ ⟨rfl, rfl⟩

/-- A new function. -/
theorem newFunction {home : ScopeId} {spelling : String} {parameters : List String} {body : Node}
    (hm : m.store.Resolved) :
    Ensures (Exec.newFunction home spelling parameters body)
      (Exec.newFunction home spelling parameters body) m
      fun f _ => f = (m.store.close home spelling parameters body).1 :=
  .returns _ { m with store := (m.store.close home spelling parameters body).2 } rfl rfl
    ⟨.close _ home spelling parameters body, hm.close home spelling parameters body⟩ rfl

/-- A name that must be defined and is. -/
theorem required {env : ScopeId} {name : String} {span : Span}
    (hdefined : m.store.defines env name = true) (h : Ensures x y m post) :
    Ensures (Exec.requireDefined env name span >>= fun _ => x) y m post := by
  have hrequired : Exec.requireDefined env name span m = .ok () m := by
    change (if m.store.defines env name = true then _ else _ : Exec Unit) m = _
    rw [if_pos hdefined]
    rfl
  have hrun : (Exec.requireDefined env name span >>= fun _ => x) m = x m :=
    Exec.bind_of_ok hrequired
  cases h with
  | returns a m' strict run keeps holds =>
      exact .returns a m' (hrun.trans strict) run keeps holds
  | stops e m' strict run keeps safe =>
      exact .stops e m' (hrun.trans strict) run keeps safe

/-- The machine as it is. -/
theorem get (hm : m.store.Resolved) :
    Ensures MonadState.get MonadState.get m fun m' st => m' = m ∧ st = m.store :=
  .returns m m rfl rfl (.refl hm) ⟨rfl, rfl⟩

/-- A change of the console leaves the store alone. -/
theorem modifyConsole {f : Machine → α × Machine} (hm : m.store.Resolved)
    (hstore : (f m).2.store = m.store) :
    Ensures (modifyGet f) (modifyGet f) m fun _ _ => True := by
  refine .returns (f m).1 (f m).2 rfl rfl ?_ trivial
  constructor
  · rw [hstore]
    exact .refl _
  · rw [hstore]
    exact hm

/-- The value of a defined name, if it has one. -/
theorem readName {env : ScopeId} {name : String} {span : Span} (hm : m.store.Resolved)
    (hdefined : m.store.defines env name = true) :
    Ensures (Exec.readName env name span) (Exec.readName env name span) m
      fun v st => v.Resolved st := by
  refine (Ensures.get hm).bind ?_
  rintro m' m₁ hm₁ ⟨hsame, hstore⟩
  rw [hsame]
  cases hlookup : m.store.lookup env name with
  | assigned v =>
      refine .pure hm₁.resolved ?_
      rw [hstore]
      exact hm _ _ _ (Store.get?_of_lookup hlookup)
  | unassigned => exact .fail hm₁.resolved nofun
  | undefined => exact absurd hlookup (Store.lookup_ne_undefined hdefined)

/-- The integer of a value, if it is one. -/
theorem asInteger {v : Value} {span : Span} (hm : m.store.Resolved) :
    Ensures (Exec.ofExcept (v.asInteger span)) (Exec.ofExcept (v.asInteger span)) m
      fun _ _ => True := by
  cases v with
  | int n => exact .pure hm trivial
  | str | function | intrinsic | unit => exact .stops _ m rfl rfl (.refl hm) nofun

theorem write {text : String} {span : Span} (hm : m.store.Resolved) :
    Ensures (Exec.write text span) (Exec.write text span) m fun _ _ => True := by
  refine (modifyConsole hm rfl).bind fun outcome m₁ hm₁ _ => ?_
  cases outcome with
  | ok u => exact .pure hm₁.resolved trivial
  | error why => exact .fail hm₁.resolved nofun

theorem readInteger {span : Span} (hm : m.store.Resolved) :
    Ensures (Exec.readInteger span) (Exec.readInteger span) m fun _ _ => True := by
  refine (modifyConsole hm rfl).bind fun outcome m₁ hm₁ _ => ?_
  rcases outcome with why | word?
  · exact .fail hm₁.resolved nofun
  cases word? with
  | none => exact .fail hm₁.resolved nofun
  | some word =>
      dsimp only
      split
      · exact .pure hm₁.resolved trivial
      · exact .fail hm₁.resolved nofun

/-- No intrinsic looks for a name. -/
theorem callIntrinsic {i : Intrinsic} {arguments : List Value} {span : Span}
    (hm : m.store.Resolved) :
    Ensures (Exec.callIntrinsic i arguments span) (Exec.callIntrinsic i arguments span) m
      fun v st => v.Resolved st := by
  unfold Exec.callIntrinsic Exec.callIntrinsicWith
  split
  · exact (write hm).bind fun _ _ hkeeps _ => .pure hkeeps.resolved trivial
  · exact (write hm).bind fun _ _ hkeeps _ => .pure hkeeps.resolved trivial
  · exact (readInteger hm).bind fun _ _ hkeeps _ => .pure hkeeps.resolved trivial
  · exact .fail hm nofun

/-- The value alone. -/
theorem value {x y : Exec Value} {env : ScopeId} {t : SymbolTable}
    (h : Ensures x y m fun v st => v.Resolved st ∧ st.Covers env t) :
    Ensures x y m fun v st => v.Resolved st :=
  h.weaken fun _ _ _ hv => hv.1

/-- A table that covered the scope before covers it afterwards. -/
theorem covering {x y : Exec Value} {env : ScopeId} {t : SymbolTable}
    (h : Ensures x y m fun v st => v.Resolved st) (hcovers : m.store.Covers env t) :
    Ensures x y m fun v st => v.Resolved st ∧ st.Covers env t :=
  h.weaken fun _ _ hkeeps hv => ⟨hv, hcovers.mono hkeeps.grows⟩

/-- A child that is there. -/
theorem kidThen {n child : Node} {i : Nat} {f g : Node → Exec β}
    (hchild : n.children[i]? = some child) (h : Ensures (f child) (g child) m after) :
    Ensures (Exec.kid n i >>= f) (Exec.kid n i >>= g) m after := by
  have hkid : Exec.kid n i = Pure.pure child := by
    rw [Exec.kid, Node.kid, hchild]
    rfl
  rw [hkid]
  exact h

end Ensures

/-! ## Constructs

Each construct is evaluated by way of evaluation of what nests in it. -/

/-- Evaluation of a resolved node, in a scope that its table covers, never comes upon
an undefined name. Afterwards the scope is covered by the table after the node. -/
def FindsNames (strict run : Node → ScopeId → Exec Value) : Prop :=
  ∀ {role : Role} {n : Node} {t t' : SymbolTable} {env : ScopeId} {m : Machine},
    WellFormed .unrestricted role n → t.walk n = .ok t' → m.store.Resolved →
      m.store.Covers env t →
      Ensures (strict n env) (run n env) m fun v st => v.Resolved st ∧ st.Covers env t'

namespace FindsNames

variable {strict run : Node → ScopeId → Exec Value} {t t' : SymbolTable} {env : ScopeId}
  {m : Machine}

/-- An expression leaves its table as it is. -/
theorem expression (h : FindsNames strict run) {n : Node}
    (hn : WellFormed .unrestricted .expression n) (hwalk : t.walk n = .ok t')
    (hm : m.store.Resolved) (hcovers : m.store.Covers env t) :
    t' = t ∧ Ensures (strict n env) (run n env) m fun v st => v.Resolved st := by
  obtain rfl : t' = t := SymbolTable.leaves_of_walk hn hwalk
  exact ⟨rfl, (h hn hwalk hm hcovers).value⟩

theorem operand (h : FindsNames strict run) {n : Node}
    (hn : WellFormed .unrestricted .expression n) (hwalk : t.walk n = .ok t')
    (hm : m.store.Resolved) (hcovers : m.store.Covers env t) :
    t' = t ∧ Ensures (Exec.operand strict n env) (Exec.operand run n env) m fun _ _ => True := by
  obtain ⟨rfl, heval⟩ := h.expression hn hwalk hm hcovers
  exact ⟨rfl, heval.bind fun v m' hkeeps _ => .asInteger hkeeps.resolved⟩

theorem code_of_compute {op : Arithmetic} {l r : Int64} {cause : Cause}
    (h : op.compute l r = .error cause) : cause.code ≠ .undefinedName := by
  unfold Arithmetic.compute at h
  split at h
  · cases h
    nofun
  · split at h
    · cases h
    · cases h
      nofun

theorem binary (h : FindsNames strict run) {op : Operator} {place : Span} {left right : Node}
    (hleft : WellFormed .unrestricted .expression left)
    (hright : WellFormed .unrestricted .expression right)
    (hwalk : t.walk (.inner (.binary op) place [left, right]) = .ok t')
    (hm : m.store.Resolved) (hcovers : m.store.Covers env t) :
    Ensures (Exec.binary strict op (.inner (.binary op) place [left, right]) env)
      (Exec.binary run op (.inner (.binary op) place [left, right]) env) m
      fun v st => v.Resolved st := by
  obtain ⟨t₁, hwalkLeft, hwalkRight⟩ := SymbolTable.walk_binary hwalk
  obtain ⟨rfl, hevalLeft⟩ := h.operand hleft hwalkLeft hm hcovers
  have hevalRight : ∀ {m'}, m.Keeps m' →
      Ensures (Exec.operand strict right env) (Exec.operand run right env) m' fun _ _ => True :=
    fun hkeeps => (h.operand hright hwalkRight hkeeps.resolved (hcovers.mono hkeeps.grows)).2
  refine .kidThen rfl (.kidThen rfl (hevalLeft.bind fun l m₁ hm₁ _ => ?_))
  rcases op with op | op | op
  · refine (hevalRight hm₁).bind fun r m₂ hm₂ _ => ?_
    cases hcompute : op.compute l r with
    | ok v => exact .pure hm₂.resolved trivial
    | error cause => exact .fail hm₂.resolved (code_of_compute hcompute)
  · exact (hevalRight hm₁).bind fun r m₂ hm₂ _ => .pure hm₂.resolved trivial
  · dsimp only
    split
    · exact .pure hm₁.resolved trivial
    · exact (hevalRight hm₁).bind fun r m₂ hm₂ _ => .pure hm₂.resolved trivial

theorem assignment (h : FindsNames strict run) {target : String} {place equals : Span}
    {value : Node} (hvalue : WellFormed .unrestricted .expression value)
    (hwalk : t.walk (.inner .assignment equals [.leaf .name target place, value]) = .ok t')
    (hm : m.store.Resolved) (hcovers : m.store.Covers env t) :
    Ensures
      (Exec.strictAssignment strict
        (.inner .assignment equals [.leaf .name target place, value]) env)
      (Exec.assignment run (.inner .assignment equals [.leaf .name target place, value]) env) m
      fun v st => v.Resolved st := by
  obtain ⟨hsees, hwalkValue⟩ := SymbolTable.walk_assignment hwalk
  obtain ⟨rfl, heval⟩ := h.expression hvalue hwalkValue hm hcovers
  refine .kidThen rfl (.kidThen rfl (heval.bind fun v m₁ hm₁ hv => ?_))
  have hdefined : m₁.store.defines env target = true :=
    (hcovers.mono hm₁.grows).defines target hsees
  have hput := Store.Extends.put m₁.store (m₁.store.owner env target) target (some v)
  have hresolved : (m₁.store.assign env target v).Resolved := by
    refine hm₁.resolved.put fun w hw => ?_
    cases hw
    exact hv.mono hput
  have hassign : Ensures
      (do
        Exec.requireDefined env target place
        Exec.updateStore fun st => st.assign env target v)
      (Exec.updateStore fun st => st.assign env target v) m₁ fun _ st => v.Resolved st :=
    .required hdefined (.updateStore hput hresolved (hv.mono hput))
  exact hassign.bind fun _ m₂ hm₂ hv₂ => .pure hm₂.resolved hv₂

/-- Arguments from left to right. -/
theorem arguments (h : FindsNames strict run) {ns : List Node}
    (hns : ∀ n ∈ ns, WellFormed .unrestricted .expression n) (hwalk : t.walkAll ns = .ok t')
    (hm : m.store.Resolved) (hcovers : m.store.Covers env t) :
    Ensures (ns.mapM fun n => strict n env) (ns.mapM fun n => run n env) m
      fun vs st => ∀ v ∈ vs, v.Resolved st := by
  induction ns generalizing t m with
  | nil => exact .pure hm (by simp)
  | cons n ns ih =>
      obtain ⟨t₁, hwalkFirst, hwalkRest⟩ := SymbolTable.walkAll_cons hwalk
      obtain ⟨rfl, heval⟩ := h.expression (hns n (by simp)) hwalkFirst hm hcovers
      rw [List.mapM_cons, List.mapM_cons]
      refine heval.bind fun v m₁ hm₁ hv => ?_
      have hrest := ih (fun x hx => hns x (by simp [hx])) hwalkRest hm₁.resolved
        (hcovers.mono hm₁.grows)
      refine hrest.bind fun vs m₂ hm₂ hvs => .pure hm₂.resolved ?_
      simp only [List.mem_cons, forall_eq_or_imp]
      exact ⟨hv.mono hm₂.grows, hvs⟩

/-- The body of a resolved function finds its parameters in the frame of the call, and
all other names from its home. -/
theorem callFunction (h : FindsNames strict run) {f : Closure} {values : List Value}
    {span : Span} (hf : f.Resolved m.store) (hvalues : ∀ v ∈ values, v.Resolved m.store)
    (hm : m.store.Resolved) :
    Ensures (Exec.callFunction strict f values span) (Exec.callFunction run f values span) m
      fun v st => v.Resolved st := by
  obtain ⟨hbody, t, t', parameters, hparameters, hcovers, hwalk⟩ := hf
  unfold Exec.callFunction
  split
  next hlength =>
    refine (Ensures.newScope hm).bind ?_
    rintro _ m₁ hm₁ ⟨rfl, hstore⟩
    let pairs := f.parameters.zip values
    have hframe : m₁.store.Covers m.store.scopes.size (t.push .function) := by
      rw [hstore]
      exact hcovers.child .function
    have hall := Store.Extends.bindAll m₁.store m.store.scopes.size pairs
    have hnames : pairs.map Prod.fst = parameters.map Node.text := by
      rw [hparameters]
      exact List.map_fst_zip (Nat.le_of_eq hlength)
    have hresolved : (m₁.store.bindAll m.store.scopes.size pairs).Resolved := by
      refine hm₁.resolved.bindAll fun v hv => (hvalues v ?_).mono hm₁.grows
      obtain ⟨x, hx, rfl⟩ := List.mem_map.1 hv
      exact (List.of_mem_zip hx).2
    have hbind : Ensures
        (Exec.updateStore fun st => st.bindAll m.store.scopes.size pairs) _ m₁
        fun _ st => st = m₁.store.bindAll m.store.scopes.size pairs :=
      .updateStore hall hresolved rfl
    refine hbind.bind fun _ m₂ hm₂ hstore₂ => ?_
    refine (h hbody hwalk hm₂.resolved ?_).value
    rw [hstore₂]
    refine (hframe.mono hall).declareParameters fun name hname => ?_
    rw [← hnames] at hname
    exact Store.binds_bindAll hframe.inside hname
  next => exact .fail hm nofun

theorem call (h : FindsNames strict run) {callee : String} {place opening : Span}
    {ns : List Node} (hns : ∀ n ∈ ns, WellFormed .unrestricted .expression n)
    (hwalk : t.walk ⟨.call, callee, place, [.inner .arguments opening ns]⟩ = .ok t')
    (hm : m.store.Resolved) (hcovers : m.store.Covers env t) :
    Ensures (Exec.call strict ⟨.call, callee, place, [.inner .arguments opening ns]⟩ env)
      (Exec.call run ⟨.call, callee, place, [.inner .arguments opening ns]⟩ env) m
      fun v st => v.Resolved st := by
  obtain ⟨hsees, hwalkArguments⟩ := SymbolTable.walk_call hwalk
  refine (Ensures.readName hm (hcovers.defines callee hsees)).bind fun v m₁ hm₁ hv => ?_
  have heval := h.arguments hns hwalkArguments hm₁.resolved (hcovers.mono hm₁.grows)
  refine .kidThen rfl (heval.bind fun vs m₂ hm₂ hvs => ?_)
  cases v with
  | function f => exact h.callFunction (Closure.Resolved.mono hv hm₂.grows) hvs hm₂.resolved
  | intrinsic i => exact .callIntrinsic hm₂.resolved
  | int | str | unit => exact .fail hm₂.resolved nofun

/-- Statements one after another, each in the table that the one before it left. -/
theorem sequence (h : FindsNames strict run) {ns : List Node}
    (hns : ∀ n ∈ ns, WellFormed .unrestricted .statement n) (hwalk : t.walkAll ns = .ok t')
    (hm : m.store.Resolved) (hcovers : m.store.Covers env t) {v : Value}
    (hv : v.Resolved m.store) :
    Ensures (ns.foldlM (fun _ n => strict n env) v) (ns.foldlM (fun _ n => run n env) v) m
      fun v st => v.Resolved st ∧ st.Covers env t' := by
  induction ns generalizing t m v with
  | nil =>
      cases hwalk
      exact .pure hm ⟨hv, hcovers⟩
  | cons n ns ih =>
      obtain ⟨t₁, hwalkFirst, hwalkRest⟩ := SymbolTable.walkAll_cons hwalk
      rw [List.foldlM_cons, List.foldlM_cons]
      refine (h (hns n (by simp)) hwalkFirst hm hcovers).bind ?_
      rintro w m₁ hm₁ ⟨hw, hcovers₁⟩
      exact ih (fun x hx => hns x (by simp [hx])) hwalkRest hm₁.resolved hcovers₁ hw

/-- A block in a scope of its own. -/
theorem inNewScope (h : FindsNames strict run) {block : Node}
    (hblock : WellFormed .unrestricted .block block)
    (hwalk : (t.push .block).walk block = .ok t') (hm : m.store.Resolved)
    (hcovers : m.store.Covers env t) :
    Ensures (Exec.inNewScope strict block env) (Exec.inNewScope run block env) m
      fun v st => v.Resolved st := by
  refine (Ensures.newScope hm).bind ?_
  rintro _ m₁ hm₁ ⟨rfl, hstore⟩
  refine (h hblock hwalk hm₁.resolved ?_).value
  rw [hstore]
  exact hcovers.child .block

theorem condition (h : FindsNames strict run) (construct : Keyword) {test : Node}
    (htest : WellFormed .unrestricted .expression test) (hwalk : t.walk test = .ok t')
    (hm : m.store.Resolved) (hcovers : m.store.Covers env t) :
    t' = t ∧ Ensures (Exec.condition strict construct test env)
      (Exec.condition run construct test env) m fun _ _ => True := by
  obtain ⟨rfl, heval⟩ := h.expression htest hwalk hm hcovers
  refine ⟨rfl, heval.bind fun v m₁ hm₁ _ => ?_⟩
  cases v with
  | int n => exact .pure hm₁.resolved trivial
  | str | function | intrinsic | unit => exact .fail hm₁.resolved nofun

/-- A test and a body that may run on every machine that has grown from this one. -/
theorem repeatWhile {test test' : Exec Bool} {body body' : Exec Unit} (rounds : Nat)
    (hm : m.store.Resolved) (htest : ∀ m', m.Keeps m' → Ensures test test' m' fun _ _ => True)
    (hbody : ∀ m', m.Keeps m' → Ensures body body' m' fun _ _ => True) :
    Ensures (Exec.repeatWhile test body rounds) (Exec.repeatWhile test' body' rounds) m
      fun _ _ => True := by
  induction rounds generalizing m with
  | zero => exact .stops .outOfFuel m rfl rfl (.refl hm) trivial
  | succ rounds ih =>
      refine (htest m (.refl hm)).bind fun goes m₁ hm₁ _ => ?_
      cases goes with
      | false => exact .pure hm₁.resolved trivial
      | true =>
          refine (hbody m₁ hm₁).bind fun _ m₂ hm₂ _ => ?_
          have hkeeps := hm₁.trans hm₂
          exact ih hm₂.resolved (fun m' hm' => htest m' (hkeeps.trans hm'))
            fun m' hm' => hbody m' (hkeeps.trans hm')

theorem loop (h : FindsNames strict run) {rounds : Nat} {keyword : Span} {test body : Node}
    (htest : WellFormed .unrestricted .expression test)
    (hbody : WellFormed .unrestricted .block body)
    (hwalk : t.walk (.inner .loop keyword [test, body]) = .ok t') (hm : m.store.Resolved)
    (hcovers : m.store.Covers env t) :
    Ensures (Exec.loop strict rounds (.inner .loop keyword [test, body]) env)
      (Exec.loop run rounds (.inner .loop keyword [test, body]) env) m
      fun v st => v.Resolved st ∧ st.Covers env t' := by
  obtain ⟨t₁, t₂, hwalkTest, hwalkBody, rfl⟩ := SymbolTable.walk_loop hwalk
  obtain rfl : t₁ = t := SymbolTable.leaves_of_walk htest hwalkTest
  have hrepeat : Ensures
      (Exec.repeatWhile (Exec.condition strict .loop test env)
        (discard (Exec.inNewScope strict body env)) rounds)
      (Exec.repeatWhile (Exec.condition run .loop test env)
        (discard (Exec.inNewScope run body env)) rounds) m fun _ _ => True := by
    refine repeatWhile rounds hm ?_ ?_
    · intro m' hm'
      exact (h.condition .loop htest hwalkTest hm'.resolved (hcovers.mono hm'.grows)).2
    · intro m' hm'
      have hround := h.inNewScope hbody hwalkBody hm'.resolved (hcovers.mono hm'.grows)
      exact hround.bind fun _ _ hkeeps _ => .pure hkeeps.resolved trivial
  rw [SymbolTable.pop_of_walk_block hbody hwalkBody]
  refine .kidThen rfl (.kidThen rfl (hrepeat.bind fun _ m₁ hm₁ _ => ?_))
  exact .pure hm₁.resolved ⟨trivial, hcovers.mono hm₁.grows⟩

/-- A conditional, by way of what it does when its test fails. -/
theorem conditional (h : FindsNames strict run) {t₁ : SymbolTable} {keyword : Span}
    {test body : Node} (rest : List Node) (htest : WellFormed .unrestricted .expression test)
    (hbody : WellFormed .unrestricted .block body) (hwalkTest : t.walk test = .ok t₁)
    (hwalkBody : (t₁.push .block).walk body = .ok t') (hm : m.store.Resolved)
    (hcovers : m.store.Covers env t)
    (hrest : ∀ m', m.Keeps m' → Ensures
      (match rest[0]? with | some n => strict n env | none => Pure.pure .unit)
      (match rest[0]? with | some n => run n env | none => Pure.pure .unit) m'
      fun v st => v.Resolved st) :
    Ensures (Exec.conditional strict (.inner .conditional keyword (test :: body :: rest)) env)
      (Exec.conditional run (.inner .conditional keyword (test :: body :: rest)) env) m
      fun v st => v.Resolved st := by
  obtain ⟨rfl, hevalTest⟩ := h.condition .conditional htest hwalkTest hm hcovers
  refine .kidThen rfl (hevalTest.bind fun goes m₁ hm₁ _ => ?_)
  cases goes with
  | true =>
      exact .kidThen rfl (h.inNewScope hbody hwalkBody hm₁.resolved (hcovers.mono hm₁.grows))
  | false => exact hrest m₁ hm₁

/-- A definition binds its name, so that the table with the declaration covers the scope. -/
theorem definition {target : String} {place keyword : Span}
    (hwalk : t.walk (.inner .definition keyword [.leaf .name target place]) = .ok t')
    (hm : m.store.Resolved) (hcovers : m.store.Covers env t) :
    Ensures (Exec.definition (.inner .definition keyword [.leaf .name target place]) env)
      (Exec.definition (.inner .definition keyword [.leaf .name target place]) env) m
      fun v st => v.Resolved st ∧ st.Covers env t' := by
  rw [SymbolTable.walk_definition hwalk]
  have hput := Store.Extends.put m.store env target none
  have hresolved : (m.store.define env target).Resolved := hm.put nofun
  have hdefine : Ensures (Exec.updateStore fun st => st.define env target) _ m
      fun _ st => st.Covers env (t.declare ⟨target, .var, place, 0⟩) :=
    .updateStore hput hresolved
      ((hcovers.mono hput).declare (Store.binds_put_self hcovers.inside none))
  refine .kidThen rfl (hdefine.bind fun _ m₁ hm₁ hcovers₁ => ?_)
  exact .pure hm₁.resolved ⟨trivial, hcovers₁⟩

/-- A function resolves in the table with its own declaration, which covers its home as
soon as the function is bound there. -/
theorem function {spelling : String} {keyword opening : Span} {parameters : List Node}
    {body : Node} (hbody : WellFormed .unrestricted .block body)
    (hwalk : t.walk ⟨.function, spelling, keyword, [.inner .parameters opening parameters, body]⟩ =
      .ok t')
    (hm : m.store.Resolved) (hcovers : m.store.Covers env t) :
    Ensures
      (Exec.function
        ⟨.function, spelling, keyword, [.inner .parameters opening parameters, body]⟩ env)
      (Exec.function
        ⟨.function, spelling, keyword, [.inner .parameters opening parameters, body]⟩ env) m
      fun v st => v.Resolved st ∧ st.Covers env t' := by
  obtain ⟨t₁, hwalkBody, rfl⟩ := SymbolTable.walk_function hwalk
  have hleaves : SymbolTable.SameOutside _ t₁ := SymbolTable.leaves_of_walk hbody hwalkBody
  rw [((SymbolTable.SameOutside.declareParameters _ _).trans hleaves).pop_eq]
  refine .kidThen rfl (.kidThen rfl ((Ensures.newFunction hm).bind ?_))
  rintro f m₁ hm₁ rfl
  let f := (m.store.close env spelling (parameters.map Node.text) body).1
  have hcovers₁ := hcovers.mono hm₁.grows
  have hput := Store.Extends.put m₁.store env spelling (some (.function f))
  have hcovers₂ : (m₁.store.bind env spelling (.function f)).Covers env
      (t.declare ⟨spelling, .function, keyword, 0⟩) :=
    (hcovers₁.mono hput).declare (Store.binds_put_self hcovers₁.inside _)
  have hresolved : (m₁.store.bind env spelling (.function f)).Resolved := by
    refine hm₁.resolved.put fun w hw => ?_
    cases hw
    exact ⟨hbody, _, t₁, parameters, rfl, hcovers₂, hwalkBody⟩
  have hbind : Ensures (Exec.updateStore fun st => st.bind env spelling (.function f)) _ m₁
      fun _ st => st.Covers env (t.declare ⟨spelling, .function, keyword, 0⟩) :=
    .updateStore hput hresolved hcovers₂
  exact hbind.bind fun _ m₂ hm₂ hcovers₂ => .pure hm₂.resolved ⟨trivial, hcovers₂⟩

theorem number {digits : String} {place : Span} (hm : m.store.Resolved) :
    Ensures (Exec.number (.leaf .number digits place)) (Exec.number (.leaf .number digits place)) m
      fun v st => v.Resolved st := by
  unfold Exec.number
  split
  · exact .pure hm trivial
  · exact .fail hm nofun

/-- One level of evaluation finds its names if the level below does. -/
theorem step (h : FindsNames strict run) (rounds : Nat) :
    FindsNames (Exec.strictStep strict rounds) (Exec.step run rounds) := by
  intro role n t t' env m hn hwalk hm hcovers
  induction hn generalizing t t' m with
  | number =>
      cases hwalk
      exact (number hm).covering hcovers
  | text =>
      cases hwalk
      exact .pure hm ⟨trivial, hcovers⟩
  | name | parameter =>
      obtain ⟨hsees, rfl⟩ := SymbolTable.walk_name hwalk
      have hdefined := hcovers.defines _ hsees
      exact (Ensures.required hdefined (.readName hm hdefined)).covering hcovers
  | binary hleft hright =>
      obtain rfl : t' = t := SymbolTable.leaves_of_walk (.binary hleft hright) hwalk
      exact (h.binary hleft hright hwalk hm hcovers).covering hcovers
  | assignment admitted hvalue =>
      obtain rfl : t' = t := SymbolTable.leaves_of_walk (.assignment admitted hvalue) hwalk
      exact (h.assignment hvalue hwalk hm hcovers).covering hcovers
  | call admitted harguments =>
      obtain rfl : t' = t := SymbolTable.leaves_of_walk (.call admitted harguments) hwalk
      have hdefined := hcovers.defines _ (SymbolTable.walk_call hwalk).1
      exact (Ensures.required hdefined (h.call harguments hwalk hm hcovers)).covering hcovers
  | evaluation _ ih => exact ih hwalk hm hcovers
  | definition => exact definition hwalk hm hcovers
  | conditional htest hbody =>
      obtain ⟨t₁, t₂, hwalkTest, hwalkBody, rfl⟩ := SymbolTable.walk_conditional hwalk
      obtain rfl : t₁ = t := SymbolTable.leaves_of_walk htest hwalkTest
      rw [SymbolTable.pop_of_walk_block hbody hwalkBody]
      refine Ensures.covering ?_ hcovers
      refine h.conditional [] htest hbody hwalkTest hwalkBody hm hcovers ?_
      exact fun m' hm' => .pure hm'.resolved trivial
  | conditionalElse htest hbody hotherwise =>
      obtain ⟨t₁, t₂, hwalkTest, hwalkBody, hwalkElse⟩ := SymbolTable.walk_conditionalElse hwalk
      obtain rfl : t₁ = t := SymbolTable.leaves_of_walk htest hwalkTest
      rw [SymbolTable.pop_of_walk_block hbody hwalkBody] at hwalkElse
      obtain rfl : t' = t₁ := SymbolTable.leaves_of_walk hotherwise hwalkElse
      refine Ensures.covering ?_ hcovers
      refine h.conditional [_] htest hbody hwalkTest hwalkBody hm hcovers ?_
      intro m' hm'
      exact (h hotherwise hwalkElse hm'.resolved (hcovers.mono hm'.grows)).value
  | loop htest hbody => exact h.loop htest hbody hwalk hm hcovers
  | function _ _ hbody => exact function hbody hwalk hm hcovers
  | alternative hbody =>
      obtain ⟨t₁, hwalkBody, rfl⟩ := SymbolTable.walk_alternative hwalk
      rw [SymbolTable.pop_of_walk_block hbody hwalkBody]
      exact .kidThen rfl ((h.inNewScope hbody hwalkBody hm hcovers).covering hcovers)
  | statement hinside =>
      exact .kidThen rfl (h hinside (SymbolTable.walk_statement hwalk) hm hcovers)
  | block _ hstatements =>
      exact h.sequence hstatements (SymbolTable.walk_block hwalk) hm hcovers trivial
  | program _ hstatements =>
      exact h.sequence hstatements (SymbolTable.walk_program hwalk) hm hcovers trivial

end FindsNames

/-- Evaluation finds its names, whatever the fuel. -/
theorem findsNames_eval (fuel : Nat) : FindsNames (strictEval fuel) (eval fuel) := by
  induction fuel with
  | zero =>
      intro role n t t' env m _ _ hm _
      exact .stops .outOfFuel m rfl rfl (.refl hm) trivial
  | succ fuel ih => exact ih.step fuel

/-! ## Sessions -/

/-- The machines of an interpreter between calls. It starts with the intrinsics and keeps
its store from call to call, whether a call returns or stops; its console may be replaced. -/
inductive Session (root : Node) : Machine → Prop
  | start (console : Console) : Session root (.initial console)
  | returned {fuel : Nat} {m m' : Machine} {v : Value} (before : Session root m)
      (call : execute fuel root m = .ok v m') : Session root m'
  | stopped {fuel : Nat} {m m' : Machine} {e : Stop} (before : Session root m)
      (call : execute fuel root m = .error e m') : Session root m'
  | redirected {m : Machine} (before : Session root m) (console : Console) :
      Session root { m with console := console }

/-- Nothing is bound but intrinsics, which are no functions of a program. -/
theorem Store.resolved_initial : Store.initial.Resolved := by
  have hempty : Store.empty.Resolved := by
    intro id name v hget
    cases id with
    | zero => cases hget
    | succ id => cases hget
  rw [Store.initial_eq]
  refine hempty.bindAll ?_
  simp [Intrinsic.all, Value.Resolved]

theorem Store.covers_initial : Store.initial.Covers Store.globalId .initial where
  inside := by decide
  defines name hname := by
    rw [Store.initial_eq]
    refine Store.defines_of_binds (Store.binds_bindAll (by decide) ?_)
    rw [SymbolTable.sees_initial] at hname
    simpa using hname

/-- The store of a machine has resolved values only, and defines what resolution starts
with in the global scope. -/
structure Machine.Ready (m : Machine) : Prop where
  resolved : m.store.Resolved
  covers : m.store.Covers Store.globalId .initial

theorem Machine.Keeps.ready {m m' : Machine} (h : m.Keeps m') (hm : m.Ready) : m'.Ready :=
  ⟨h.resolved, hm.covers.mono h.grows⟩

section Sessions

variable {root : Node} {m : Machine} {t : SymbolTable}

/-- Executing a resolved program never comes upon an undefined name. -/
theorem Machine.Ready.execute (hm : m.Ready) (hroot : WellFormed .unrestricted .program root)
    (hanalyze : analyze root = .ok t) (fuel : Nat) :
    Ensures (strictExecute fuel root) (ScopeLang.execute fuel root) m
      fun v st => v.Resolved st ∧ st.Covers Store.globalId t :=
  findsNames_eval fuel hroot hanalyze hm.resolved hm.covers

/-- Every call of a session leaves the machine ready for the next one. -/
theorem Session.ready (h : Session root m) (hroot : WellFormed .unrestricted .program root)
    (hanalyze : analyze root = .ok t) : m.Ready := by
  induction h with
  | start console => exact ⟨Store.resolved_initial, Store.covers_initial⟩
  | returned _ call ih => exact ((ih.execute hroot hanalyze _).keeps_of_ok call).ready ih
  | stopped _ call ih => exact ((ih.execute hroot hanalyze _).keeps_of_error call).1.ready ih
  | redirected _ console ih => exact ⟨ih.resolved, ih.covers⟩

end Sessions

/-- What compiles is well formed and resolves. -/
theorem resolved_of_compile {source : String} {p : Program} (h : compile source = .ok p) :
    WellFormed .unrestricted .program p.root ∧ analyze p.root = .ok p.symbols := by
  rw [compile] at h
  obtain ⟨root, hparse, h⟩ := SymbolTable.exists_of_bind_eq_ok h
  obtain ⟨symbols, hanalyze, h⟩ := SymbolTable.exists_of_bind_eq_ok h
  cases h
  exact ⟨wellFormed_of_parse (fun l _ => Vocabulary.admits_unrestricted l) hparse, hanalyze⟩

/-- A program that compiles finds every name that it reads, calls or assigns to, in each
of any number of calls of one interpreter, whatever the calls before it did. So no call
ends with the fault of an undefined name. -/
theorem compiled_finds_names {source : String} {p : Program} (hcompile : compile source = .ok p)
    {m : Machine} (hsession : Session p.root m) (fuel : Nat) :
    strictExecute fuel p.root m = execute fuel p.root m ∧
      ∀ f m', execute fuel p.root m = .error (.fault f) m' → f.code ≠ .undefinedName := by
  obtain ⟨hroot, hanalyze⟩ := resolved_of_compile hcompile
  have hrun := (hsession.ready hroot hanalyze).execute hroot hanalyze fuel
  exact ⟨hrun.strict_eq, fun f m' hstops => (hrun.keeps_of_error hstops).2⟩

/-- A function that outlives the call that created it finds the parameter of that call,
also when the program runs again on the store of its first run. -/
theorem compiled_finds_names_closure :
    let source := "var g; function make(n) { function get() { n; } g = get; } make(7); g();"
    ∃ p v m, compile source = .ok p ∧ execute 20 p.root (.initial {}) = .ok v m ∧
      v.render = "7" ∧ strictExecute 20 p.root m = execute 20 p.root m ∧
      ∀ f m', execute 20 p.root m = .error (.fault f) m' → f.code ≠ .undefinedName := by
  intro source
  have hrun : (run 20 source {}).ending = .value "7" := by decide +kernel
  unfold run at hrun
  split at hrun
  next p hcompile =>
    unfold Program.run at hrun
    split at hrun
    next v m hcall =>
      have hsession : Session p.root m := .returned (.start {}) hcall
      exact ⟨p, v, m, hcompile, hcall, Ending.value.inj hrun,
        compiled_finds_names hcompile hsession 20⟩
    next => cases hrun
    next => cases hrun
  next => cases hrun

end ScopeLang
