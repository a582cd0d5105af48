-- SUMMARY: Evaluation neither reads nor writes a scope that it cannot reach.
import ScopeLang.Proofs.Coupling

/-! # Locality

From a scope evaluation comes to its parent and to the homes of the functions
that are bound in it, and from there further on. Scopes beyond that reach do
not matter: on two stores that agree within reach evaluation does the same, and
it leaves the scopes beyond reach as they are. For a call, what counts is the
reach of the function's home and of the homes of the functions among the
arguments; the scope of the caller is not one of them.

The scopes within reach change during a run, but only scopes that are new come
to be within reach. So one fixed set of scopes, those within reach at the start
and all the later ones, couples the two runs.
-/

namespace ScopeLang

/-! ## Reach -/

/-- The scopes that can be come to from some scopes of a store. -/
inductive Store.Reaches (st : Store) (roots : ScopeId → Prop) : ScopeId → Prop
  | root {id : ScopeId} (h : roots id) : Reaches st roots id
  | parent {id p : ScopeId} (h : Reaches st roots id) (hp : st.parent? id = some p) :
      Reaches st roots p
  | captured {id : ScopeId} {name : String} {f : Closure} (h : Reaches st roots id)
      (hf : (name, some (.function f)) ∈ (st.bindings id).entries) : Reaches st roots f.home

/-- The stores have the same scopes, and each of those given is the same in both. -/
structure Store.AgreesOn (here : ScopeId → Prop) (st st' : Store) : Prop where
  size : st'.scopes.size = st.scopes.size
  scope : ∀ id, here id → st'.scopes[id]? = st.scopes[id]?

/-- The homes of the functions among some values. -/
def Value.homes (vs : List Value) (id : ScopeId) : Prop :=
  ∃ f : Closure, .function f ∈ vs ∧ f.home = id

namespace Exec

variable {α : Type}

/-- On both machines the action does the same, leaves the same scopes within reach of the
roots and the same new ones, and changes no old scope beyond reach. -/
structure SameWithin (x : Exec α) (roots : ScopeId → Prop) (m m' : Machine) : Prop where
  outcome : x.outcome m' = x.outcome m
  console : (x.final m').console = (x.final m).console
  agrees : (x.final m).store.AgreesOn
    (fun id => m.store.Reaches roots id ∨ m.store.scopes.size ≤ id) (x.final m').store
  untouched : ∀ id < m.store.scopes.size, ¬ m.store.Reaches roots id →
    (x.final m).store.scopes[id]? = m.store.scopes[id]? ∧
      (x.final m').store.scopes[id]? = m'.store.scopes[id]?

/-- Only what is within reach of the roots matters to the action. -/
def LocalTo (x : Exec α) (roots : ScopeId → Prop) : Prop :=
  ∀ m m', m'.console = m.console → m.store.AgreesOn (m.store.Reaches roots) m'.store →
    x.SameWithin roots m m'

end Exec

/-! ## The coupling of two stores -/

/-- Two runs of the same nodes that share what is within reach in the first store, and
all that comes later. -/
def Store.within (st st' : Store) (roots : ScopeId → Prop) : Coupling where
  node := Eq
  shared id := st.Reaches roots id ∨ st.scopes.size ≤ id
  apart id scope? scope?' := scope? = st.scopes[id]? ∧ scope?' = st'.scopes[id]?
  console := Eq
  fault := Eq

section Within

variable {st st' : Store} {roots : ScopeId → Prop}

theorem Store.lawful_within : (st.within st' roots).Lawful where
  tag h := by cases h; rfl
  text h := by cases h; rfl
  child {n n' i use} h _ := by
    cases h
    cases hc : n.children[i]? with
    | none => exact .missing hc hc rfl
    | some c =>
        refine .present c c hc hc ?_
        cases use with
        | evaluated | named | parameters => rfl
        | arguments => exact List.forall₂_same.2 fun _ _ => rfl
  statements h _ := by
    cases h
    exact List.forall₂_same.2 fun _ _ => rfl
  alternative {n n'} h _ := by
    cases h
    cases n.children[2]? with
    | none => exact .none
    | some c => exact .some rfl
  fault h _ := by cases h; rfl
  childFault h _ hc hc' := by
    cases h
    cases hc.symm.trans hc'
    rfl
  write text h := by cases h; exact ⟨rfl, rfl⟩
  readWord h := by cases h; exact ⟨rfl, rfl⟩

theorem Store.values_within {v : Value}
    (h : ∀ f, v = .function f → st.Reaches roots f.home) : (st.within st' roots).Values v v := by
  cases v with
  | int n => exact .int n
  | str s => exact .str s
  | function f => exact .function ⟨rfl, rfl, rfl, rfl, rfl, .inl (h f rfl)⟩
  | intrinsic i => exact .intrinsic i
  | unit => exact .unit

/-- A scope within reach leads to scopes within reach only. -/
theorem Store.scopes_within {id : ScopeId} {s : Scope} (hid : st.Reaches roots id)
    (hs : st.scopes[id]? = some s) : (st.within st' roots).Scopes id s s where
  parent := rfl
  outwards p hp hlt := by
    refine .inl (hid.parent ?_)
    unfold Store.parent?
    rw [hs, Option.bind_some, hp]
    exact Option.filter_eq_some_iff.2 ⟨rfl, by simpa using hlt⟩
  made := rfl
  bindings := by
    have hbindings : st.bindings id = s.bindings := by
      unfold Store.bindings
      rw [hs]
      rfl
    refine List.forall₂_same.2 ?_
    rintro ⟨name, v?⟩ hmem
    refine ⟨rfl, ?_⟩
    cases v? with
    | none => exact .none
    | some v =>
        -- A function in a scope within reach is captured, and so is its home.
        refine .some (Store.values_within fun f hf => ?_)
        subst hf
        exact hid.captured (hbindings ▸ hmem)

/-- Stores that agree within reach are coupled. -/
theorem Store.stores_within (h : st.AgreesOn (st.Reaches roots) st') :
    (st.within st' roots).Stores st st' where
  size := h.size
  fresh id hid := .inr hid
  shared id hid := by
    obtain hid | hid := hid
    · rw [h.scope id hid]
      cases hs : st.scopes[id]? with
      | none => exact .none
      | some s => exact .some (Store.scopes_within hid hs)
    · have hs : st.scopes[id]? = none := Array.getElem?_eq_none hid
      have hs' : st'.scopes[id]? = none := Array.getElem?_eq_none (h.size ▸ hid)
      rw [hs, hs']
      exact .none
  apart id _ := ⟨rfl, rfl⟩

end Within

/-! ## What coupled stores have in common -/

section Outcomes

variable {st st' st₁ st₁' : Store} {roots : ScopeId → Prop}

theorem Store.eq_of_values_within {v w : Value} (h : (st.within st' roots).Values v w) :
    v = w := by
  cases h with
  | @function f g same =>
      have hbody : f.body = g.body := same.body
      obtain ⟨hname, hparameters, hhome, hserial, -, -⟩ := same
      cases f
      cases g
      simp only at hname hparameters hhome hserial hbody
      subst hname hparameters hhome hserial hbody
      rfl
  | int | str | intrinsic | unit => rfl

theorem Store.eq_of_scopes_within {id : ScopeId} {s s' : Scope}
    (h : (st.within st' roots).Scopes id s s') : s' = s := by
  obtain ⟨parent, ⟨entries⟩, made⟩ := s
  obtain ⟨parent', ⟨entries'⟩, made'⟩ := s'
  obtain ⟨rfl, -, rfl, hbindings⟩ := h
  have hentries : entries = entries' := by
    refine List.forall₂_eq_eq_eq ▸ List.Forall₂.imp ?_ hbindings
    rintro ⟨k, v?⟩ ⟨k', v?'⟩ ⟨hkey, hvalue⟩
    cases hkey
    cases hvalue with
    | none => rfl
    | some hvalue => rw [Store.eq_of_values_within hvalue]
  rw [hentries]

theorem Store.agreesOn_of_stores_within (h : (st.within st' roots).Stores st₁ st₁') :
    st₁.AgreesOn (fun id => st.Reaches roots id ∨ st.scopes.size ≤ id) st₁' where
  size := h.size
  scope id hid := by
    obtain ⟨hs, hs'⟩ | ⟨s, s', hs, hs', hscope⟩ := Coupling.rel_cases (h.shared id hid)
    · rw [hs, hs']
    · rw [hs, hs', Store.eq_of_scopes_within hscope]

end Outcomes

/-- An action that every such coupling relates to itself is local. -/
theorem Exec.LocalTo.of_relates {x : Exec Value} {roots : ScopeId → Prop}
    (h : ∀ st st' : Store, (st.within st' roots).Relates (st.within st' roots).Values x x) :
    x.LocalTo roots := by
  intro m m' hconsole hagrees
  have hrelates := h m.store m'.store
  have hmachines : (m.store.within m'.store roots).Machines m m' :=
    ⟨Store.stores_within hagrees, hconsole.symm⟩
  have hfinal := hrelates.final hmachines
  refine ⟨?_, hfinal.console.symm, Store.agreesOn_of_stores_within hfinal.store, ?_⟩
  · obtain ⟨v, w, hv, hw, hsame⟩ | ⟨e, e', he, he', hsame⟩ := hrelates.outcome hmachines
    · rw [hv, hw, Store.eq_of_values_within hsame]
    · rw [he, he']
      cases hsame with
      | fault same =>
          cases same
          rfl
      | outOfFuel => rfl
  · intro id hid hbeyond
    refine hfinal.store.apart id ?_
    rintro (hreach | hnew)
    · exact hbeyond hreach
    · omega

theorem localTo_eval (fuel : Nat) (n : Node) (env : ScopeId) :
    (eval fuel n env).LocalTo (· = env) :=
  .of_relates fun _ _ => Store.lawful_within.eval fuel rfl (.inl (.root rfl))

/-- A call is local to the homes of the function and of the functions among the arguments. -/
theorem localTo_callFunction (fuel : Nat) (f : Closure) (vs : List Value) (span : Span) :
    (Exec.callFunction (eval fuel) f vs span).LocalTo (Value.homes (.function f :: vs)) := by
  refine .of_relates fun st st' => ?_
  have hf : (st.within st' (Value.homes (.function f :: vs))).Closures f f :=
    ⟨rfl, rfl, rfl, rfl, rfl, .inl (.root ⟨f, by simp, rfl⟩)⟩
  refine Coupling.Evaluates.callFunction (Store.lawful_within.eval fuel) hf ?_ fun _ _ _ => rfl
  refine List.forall₂_same.2 fun v hv => Store.values_within fun g hg => .root ⟨g, ?_, rfl⟩
  rw [← hg]
  exact List.mem_cons_of_mem _ hv

/-! ## Scopes beyond reach -/

theorem Store.agreesOn_clear {st : Store} {id : ScopeId} {here : ScopeId → Prop}
    (h : ¬ here id) : st.AgreesOn here (st.clear id) where
  size := by simp [Store.clear, Store.modify]
  scope j hj := by
    have hne : id ≠ j := by
      rintro rfl
      exact h hj
    unfold Store.clear
    rw [Store.getElem?_modify, if_neg hne]

/-- Only what is within reach of its scope matters to evaluation, and only what is within
reach of the function and the arguments to a call. So a scope beyond reach may be emptied:
evaluation does the same and leaves the same scopes, that one apart. -/
theorem evaluation_local :
    (∀ fuel n env, (eval fuel n env).LocalTo (· = env)) ∧
    (∀ fuel f vs span,
      (Exec.callFunction (eval fuel) f vs span).LocalTo (Value.homes (.function f :: vs))) ∧
    ∀ fuel n env (m : Machine) id, ¬ m.store.Reaches (· = env) id →
      let emptied := { m with store := m.store.clear id }
      (eval fuel n env).outcome emptied = (eval fuel n env).outcome m ∧
        ((eval fuel n env).final emptied).console = ((eval fuel n env).final m).console ∧
        ∀ j ≠ id, ((eval fuel n env).final emptied).store.scopes[j]? =
          ((eval fuel n env).final m).store.scopes[j]? := by
  refine ⟨localTo_eval, localTo_callFunction, ?_⟩
  intro fuel n env m id hid emptied
  have hsame := localTo_eval fuel n env m emptied rfl (Store.agreesOn_clear hid)
  refine ⟨hsame.outcome, hsame.console, fun j hj => ?_⟩
  by_cases hwithin : m.store.Reaches (· = env) j ∨ m.store.scopes.size ≤ j
  · exact hsame.agrees.scope j hwithin
  · -- Neither run changes an old scope beyond reach, and emptying spared this one.
    rw [not_or, Nat.not_le] at hwithin
    obtain ⟨hleft, hright⟩ := hsame.untouched j hwithin.2 hwithin.1
    have hkept : emptied.store.scopes[j]? = m.store.scopes[j]? := by
      change (m.store.clear id).scopes[j]? = _
      unfold Store.clear
      rw [Store.getElem?_modify, if_neg hj.symm]
    rw [hleft, hright, hkept]

/-- A function of the global scope does not see what its caller's scope holds. -/
theorem evaluation_local_caller :
    let place := Span.start
    let body := Node.inner .block place [.inner .statement place [.leaf .name "x" place]]
    let get : Closure := ⟨"get", [], body, 0, 0⟩
    let globals := (Store.empty.bind 0 "x" (.int 7)).bind 0 "get" (.function get)
    let machine := fun n => (⟨(globals.child 0).2.bind 1 "x" (.int n), {}⟩ : Machine)
    let call := Exec.callFunction (eval 5) get [] place
    (machine 1).store.AgreesOn ((machine 1).store.Reaches (Value.homes [.function get]))
        (machine 2).store ∧
      call.SameWithin (Value.homes [.function get]) (machine 1) (machine 2) ∧
      (call.outcome (machine 2)).map Value.render = .ok "7" := by
  intro place body get globals machine call
  have hreach : ∀ id, (machine 1).store.Reaches (Value.homes [.function get]) id → id = 0 := by
    intro id hid
    induction hid with
    | root h =>
        obtain ⟨f, hf, rfl⟩ := h
        cases List.mem_singleton.1 hf
        rfl
    | parent _ hp ih =>
        subst ih
        cases hp
    | captured _ hf ih =>
        subst ih
        have hentries : ((machine 1).store.bindings 0).entries =
            [("get", some (.function get)), ("x", some (.int 7))] := rfl
        rw [hentries] at hf
        simp only [List.mem_cons, Prod.mk.injEq, Option.some.injEq, Value.function.injEq,
          reduceCtorEq, and_false, List.not_mem_nil, or_false] at hf
        rw [hf.2]
  have hagrees : (machine 1).store.AgreesOn
      ((machine 1).store.Reaches (Value.homes [.function get])) (machine 2).store := by
    refine ⟨rfl, fun id hid => ?_⟩
    rw [hreach id hid]
    rfl
  exact ⟨hagrees, evaluation_local.2.1 5 get [] place _ _ rfl hagrees, by decide +kernel⟩

end ScopeLang
