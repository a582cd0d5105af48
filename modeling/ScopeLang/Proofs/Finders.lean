-- SUMMARY: Evaluation that is told where to find its names, and when that changes nothing.
import ScopeLang.Proofs.Coupling
import ScopeLang.Proofs.ScopeMirrors

/-! # Evaluation with a finder

Evaluation finds the scope that owns a name by going outwards from where the
name is used. `evalFound` leaves that to a finder, which may know the place of
the use. A finder is right about a use if it names the owner wherever that lies
at one of the depths of the use.

If a finder is right about all uses in a tree, evaluation with it does what
`eval` does. On the way from one node to the next, the scopes of the run keep
following the regions that resolution has there.
-/

namespace ScopeLang

/-! ## Evaluation with a finder -/

/-- Says which scope has a name that is used at a place, seen from a scope, or why to stop. -/
abbrev Finder := Span → String → ScopeId → Store → Except Stop ScopeId

namespace Exec

section Finding

variable (find : Finder) (eval : Node → ScopeId → Exec Value)

/-- The scope that the finder names. -/
def locate (place : Span) (name : String) (env : ScopeId) : Exec ScopeId := do
  match find place name env (← get).store with
  | .ok id => return id
  | .error e => throw e

/-- The value of a name in the scope that the finder names. -/
def readFound (env : ScopeId) (name : String) (span : Span) : Exec Value := do
  let id ← locate find span name env
  match ((← get).store.bindings id).get? name with
  | some (some v) => return v
  | some none => fail (.unassignedName name) span
  | none => fail (.undefinedName name) span

/-- An assignment in the scope that the finder names once the value is there. -/
def assignmentFound (n : Node) (env : ScopeId) : Exec Value :=
  assignmentWith eval (fun target v => do
    let id ← locate find target.span target.text env
    updateStore fun st => st.bind id target.text v) n env

/-- A call of what the callee is in the scope that the finder names. -/
def callFound (n : Node) (env : ScopeId) : Exec Value :=
  callWith eval (readFound find env n.text n.span) callIntrinsic n env

/-- One level of evaluation, with names where the finder says. -/
def stepFound (rounds : Nat) (n : Node) (env : ScopeId) : Exec Value :=
  match n.tag with
  | .name => readFound find env n.text n.span
  | .call => callFound find eval n env
  | .assignment => assignmentFound find eval n env
  | _ => step eval rounds n env

end Finding

end Exec

/-- Evaluate a node in a scope, with names where the finder says. -/
def evalFound (find : Finder) : Nat → Node → ScopeId → Exec Value
  | 0, _, _ => throw .outOfFuel
  | fuel + 1, n, env => Exec.stepFound find (evalFound find fuel) fuel n env

/-- Evaluate a tree in the global scope, with names where the finder says. -/
def executeFound (find : Finder) (fuel : Nat) (root : Node) : Exec Value :=
  evalFound find fuel root Store.globalId

/-- The finder that names the owner. -/
def Finder.owner : Finder :=
  fun _ name env st => .ok (st.owner env name)

section Owner

variable {find : Finder} {place : Span} {name : String} {env : ScopeId} {m : Machine}

theorem Exec.locate_of_found {id : ScopeId} (h : find place name env m.store = .ok id) :
    Exec.locate find place name env m = .ok id m := by
  change (match find place name env m.store with
    | .ok id => pure id
    | .error e => throw e : Exec ScopeId) m = _
  rw [h]
  rfl

/-- Reading a name whose owner is found is reading the name. -/
theorem Exec.readFound_of_found (h : find place name env m.store = .ok (m.store.owner env name)) :
    Exec.readFound find env name place m = Exec.readName env name place m := by
  have hget : (get : Exec Machine) m = .ok m m := rfl
  rw [Exec.readFound, Exec.bind_of_ok (Exec.locate_of_found h), Exec.bind_of_ok hget,
    Exec.readName_eq, Store.lookup]
  cases (m.store.bindings (m.store.owner env name)).get? name with
  | none => rfl
  | some v? => cases v? <;> rfl

end Owner

/-- Evaluation finds names at their owners. -/
theorem evalFound_owner (fuel : Nat) : evalFound .owner fuel = eval fuel := by
  have hread : ∀ env name span,
      Exec.readFound .owner env name span = Exec.readName env name span :=
    fun env name span => funext fun m => Exec.readFound_of_found rfl
  induction fuel with
  | zero => rfl
  | succ fuel ih =>
      funext n env
      rw [evalFound, eval, ih]
      unfold Exec.stepFound
      split
      next htag =>
        rw [Exec.step, htag]
        exact hread env n.text n.span
      next htag =>
        rw [Exec.step, htag]
        unfold Exec.callFound
        rw [hread]
        rfl
      next htag =>
        rw [Exec.step, htag]
        rfl
      next => rfl

/-! ## Right finders -/

/-- Whether the owner of the name, seen from a scope, binds it and lies at one of the depths. -/
def Use.ownedAt (u : Use) (depths : List Nat) (st : Store) (env : ScopeId) : Bool :=
  let owner := st.owner env u.name
  st.binds owner u.name && depths.contains (st.depth owner)

/-- The finder names the owner wherever it lies at one of the depths of the use. -/
def Finder.RightAt (find : Finder) (u : Use) : Prop :=
  ∀ st env, u.ownedAt u.depths st env = true →
    find u.place u.name env st = .ok (st.owner env u.name)

/-! ## Actions that leave the store alone -/

namespace Exec

variable {α β : Type}

/-- The store is as it was, whether the action returns or stops. -/
def Quiet (x : Exec α) : Prop :=
  ∀ m, (x.final m).store = m.store

theorem Quiet.pure (a : α) : Quiet (Pure.pure a) :=
  fun _ => rfl

theorem Quiet.fail (cause : Cause) (span : Span) : Quiet (Exec.fail (α := α) cause span) :=
  fun _ => rfl

theorem Quiet.bind {x : Exec α} {f : α → Exec β} (hx : x.Quiet) (hf : ∀ a, (f a).Quiet) :
    (x >>= f).Quiet := by
  intro m
  have hfirst := hx m
  unfold final at hfirst ⊢
  cases hrun : x m with
  | ok a m₁ =>
      rw [hrun] at hfirst
      rw [bind_of_ok hrun]
      exact (hf a m₁).trans hfirst
  | error e m₁ =>
      rw [hrun] at hfirst
      rw [bind_of_error hrun]
      exact hfirst

/-- A change of the console. -/
theorem Quiet.modifyConsole {f : Machine → α × Machine} (h : ∀ m, (f m).2.store = m.store) :
    Quiet (modifyGet f) :=
  h

theorem quiet_write (text : String) (span : Span) : (write text span).Quiet := by
  refine (Quiet.modifyConsole fun _ => rfl).bind fun outcome => ?_
  cases outcome with
  | ok u => exact .pure ()
  | error why => exact .fail _ _

theorem quiet_readInteger (span : Span) : (readInteger span).Quiet := by
  refine (Quiet.modifyConsole fun _ => rfl).bind fun outcome => ?_
  rcases outcome with why | word?
  · exact .fail _ _
  cases word? with
  | none => exact .fail _ _
  | some word =>
      dsimp only
      split
      · exact .pure _
      · exact .fail _ _

theorem quiet_ofExcept (x : Except Fault α) : (ofExcept x).Quiet := by
  cases x with
  | ok a => exact .pure a
  | error f => exact fun _ => rfl

end Exec

/-! ## Runs that follow their regions -/

/-- Evaluation in a scope stands where resolution has the table. -/
structure Store.At (good : Use → Prop) (st : Store) (plan : List Region) (env : ScopeId)
    (t : SymbolTable) (closing : List Region) : Prop where
  charted : st.Charted good plan
  mirrors : st.Mirrors plan env true t.regions closing

/-- The second store has grown from the first one and keeps to the longer plan. Of the
scopes of the first one, only the one given may have got new names. -/
structure Store.Keeps (good : Use → Prop) (env : ScopeId) (st : Store) (plan : List Region)
    (st' : Store) (plan' : List Region) : Prop where
  grows : st.Extends st'
  plan : plan <+: plan'
  charted : st'.Charted good plan'
  still : ∀ id < st.scopes.size, id ≠ env →
    ∀ name, st'.binds id name = true → st.binds id name = true

namespace Store.Keeps

variable {good : Use → Prop} {env : ScopeId} {st st' st'' : Store} {plan plan' plan'' : List Region}

theorem refl (h : st.Charted good plan) : st.Keeps good env plan st plan :=
  ⟨.refl st, List.prefix_rfl, h, fun _ _ _ _ hname => hname⟩

theorem trans (h : st.Keeps good env plan st' plan') (h' : st'.Keeps good env plan' st'' plan'') :
    st.Keeps good env plan st'' plan'' where
  grows := h.grows.trans h'.grows
  plan := h.plan.trans h'.plan
  charted := h'.charted
  still id hid hne name hname :=
    h.still id hid hne name (h'.still id (Nat.lt_of_lt_of_le hid h.grows.size) hne name hname)

/-- A change in a scope that the first store does not have leaves all its scopes alone. -/
theorem of_new {id : ScopeId} (h : st.Keeps good id plan st' plan') (hnew : st.scopes.size ≤ id) :
    st.Keeps good env plan st' plan' where
  grows := h.grows
  plan := h.plan
  charted := h.charted
  still j hj _ := h.still j hj (Nat.ne_of_lt (Nat.lt_of_lt_of_le hj hnew))

/-- Where evaluation stood, it stands again after what happened in a new scope. -/
theorem resume {id : ScopeId} {t : SymbolTable} {closing : List Region}
    (h : st.Keeps good id plan st' plan') (hnew : st.scopes.size ≤ id)
    (hat : st.At good plan env t closing) : st'.At good plan' env t closing := by
  refine ⟨h.charted, hat.mirrors.mono h.grows h.plan fun _ j hj => ?_⟩
  have hlt : j < st.scopes.size := Nat.lt_of_le_of_lt hj hat.mirrors.inside
  exact h.still j hlt (Nat.ne_of_lt (Nat.lt_of_lt_of_le hlt hnew))

end Store.Keeps

/-- Both actions do the same on a machine, and the store keeps to the plan. If they return, what
is promised of the value and the store holds. -/
inductive Follows {α : Type} (good : Use → Prop) (env : ScopeId) (x y : Exec α) (m : Machine)
    (plan : List Region) (post : α → Store → List Region → Prop) : Prop
  | returns (a : α) (m' : Machine) (plan' : List Region) (found : x m = .ok a m')
      (run : y m = .ok a m') (keeps : m.store.Keeps good env plan m'.store plan')
      (holds : post a m'.store plan')
  | stops (e : Stop) (m' : Machine) (plan' : List Region) (found : x m = .error e m')
      (run : y m = .error e m') (keeps : m.store.Keeps good env plan m'.store plan')

namespace Follows

variable {good : Use → Prop} {env : ScopeId} {α β : Type} {x y : Exec α} {m : Machine}
  {plan : List Region} {post post' : α → Store → List Region → Prop}
  {after : β → Store → List Region → Prop}

theorem found_eq (h : Follows good env x y m plan post) : x m = y m := by
  cases h with
  | returns a m' plan' found run _ _ => exact found.trans run.symm
  | stops e m' plan' found run _ => exact found.trans run.symm

/-- However it ends, the store that is left keeps to the plan. -/
theorem keeps_final (h : Follows good env x y m plan post) :
    ∃ plan', m.store.Keeps good env plan (y.final m).store plan' := by
  cases h with
  | returns a m' plan' _ run keeps _ =>
      rw [Exec.final_of_ok run]
      exact ⟨plan', keeps⟩
  | stops e m' plan' _ run keeps =>
      rw [Exec.final_of_error run]
      exact ⟨plan', keeps⟩

theorem pure {a : α} (hm : m.store.Charted good plan) (h : post a m.store plan) :
    Follows good env (Pure.pure a) (Pure.pure a) m plan post :=
  .returns a m plan rfl rfl (.refl hm) h

theorem fail {cause : Cause} {span : Span} (hm : m.store.Charted good plan) :
    Follows good env (Exec.fail cause span) (Exec.fail cause span) m plan post :=
  .stops _ m plan rfl rfl (.refl hm)

theorem weaken (h : Follows good env x y m plan post)
    (hpost : ∀ a st plan', m.store.Keeps good env plan st plan' → post a st plan' →
      post' a st plan') : Follows good env x y m plan post' := by
  cases h with
  | returns a m' plan' found run keeps holds =>
      exact .returns a m' plan' found run keeps (hpost a m'.store plan' keeps holds)
  | stops e m' plan' found run keeps => exact .stops e m' plan' found run keeps

/-- One action after another. -/
theorem bind {f g : α → Exec β} (hx : Follows good env x y m plan post)
    (hf : ∀ a m' plan', m.store.Keeps good env plan m'.store plan' → post a m'.store plan' →
      Follows good env (f a) (g a) m' plan' after) :
    Follows good env (x >>= f) (y >>= g) m plan after := by
  cases hx with
  | stops e m' plan' found run keeps =>
      exact .stops e m' plan' (Exec.bind_of_error found) (Exec.bind_of_error run) keeps
  | returns a m' plan' found run keeps holds =>
      cases hf a m' plan' keeps holds with
      | stops e m'' plan'' found' run' keeps' =>
          exact .stops e m'' plan'' ((Exec.bind_of_ok found).trans found')
            ((Exec.bind_of_ok run).trans run') (keeps.trans keeps')
      | returns b m'' plan'' found' run' keeps' holds' =>
          exact .returns b m'' plan'' ((Exec.bind_of_ok found).trans found')
            ((Exec.bind_of_ok run).trans run') (keeps.trans keeps') holds'

/-- A child that is there. -/
theorem kidThen {n child : Node} {i : Nat} {f g : Node → Exec β}
    (hchild : n.children[i]? = some child) (h : Follows good env (f child) (g child) m plan after) :
    Follows good env (Exec.kid n i >>= f) (Exec.kid n i >>= g) m plan after := by
  have hkid : Exec.kid n i = Pure.pure child := by
    rw [Exec.kid, Node.kid, hchild]
    rfl
  rw [hkid]
  exact h

/-- A change of the store that both actions make. -/
theorem updateStore {f g : Store → Store} {post : Unit → Store → List Region → Prop}
    (hsame : f m.store = g m.store) (hkeeps : m.store.Keeps good env plan (g m.store) plan)
    (h : post () (g m.store) plan) :
    Follows good env (Exec.updateStore f) (Exec.updateStore g) m plan post := by
  refine .returns () { m with store := g m.store } plan ?_ rfl hkeeps h
  rw [← hsame]
  rfl

/-- An action that the first one starts with and that leaves the machine as it is. -/
theorem startWith {z : Exec β} {b : β} {f : β → Exec α} (hz : z m = .ok b m)
    (h : Follows good env (f b) y m plan post) : Follows good env (z >>= f) y m plan post := by
  have hrun : (z >>= f) m = f b m := Exec.bind_of_ok hz
  cases h with
  | returns a m' plan' found run keeps holds =>
      exact .returns a m' plan' (hrun.trans found) run keeps holds
  | stops e m' plan' found run keeps => exact .stops e m' plan' (hrun.trans found) run keeps

/-- What follows the creation of a scope, for which the plan has a region. -/
theorem newScopeThen {p : ScopeId} {f g : ScopeId → Exec β} (c : Region)
    (hm : m.store.Charted good plan)
    (h : Follows good m.store.scopes.size (f m.store.scopes.size) (g m.store.scopes.size)
      { m with store := (m.store.child p).2 } (plan ++ [c]) after) :
    Follows good env (Exec.newScope p >>= f) (Exec.newScope p >>= g) m plan
      fun b st plan' => after b st plan' ∧
        m.store.Keeps good m.store.scopes.size plan st plan' := by
  have hchild : m.store.Keeps good m.store.scopes.size plan (m.store.child p).2 (plan ++ [c]) := by
    refine ⟨.child _ p, List.prefix_append _ _, hm.child p c, fun id _ _ name hname => ?_⟩
    rw [Store.binds_child] at hname
    exact hname
  cases h with
  | stops e m' plan' found run keeps =>
      exact .stops e m' plan' found run ((hchild.trans keeps).of_new (Nat.le_refl _))
  | returns b m' plan' found run keeps holds =>
      have hkeeps := hchild.trans keeps
      exact .returns b m' plan' found run (hkeeps.of_new (Nat.le_refl _)) ⟨holds, hkeeps⟩

/-- A new function. -/
theorem newFunction {home : ScopeId} {spelling : String} {parameters : List String} {body : Node}
    (hm : m.store.Charted good plan) :
    Follows good env (Exec.newFunction home spelling parameters body)
      (Exec.newFunction home spelling parameters body) m plan fun f st plan' =>
        f = (m.store.close home spelling parameters body).1 ∧
          (m.store.close home spelling parameters body).2 = st ∧ plan = plan' := by
  have hclose :
      m.store.Keeps good env plan (m.store.close home spelling parameters body).2 plan := by
    refine ⟨.close _ home spelling parameters body, List.prefix_rfl,
      hm.close home spelling parameters body, fun id _ _ name hname => ?_⟩
    rw [Store.binds_close] at hname
    exact hname
  exact .returns _ { m with store := (m.store.close home spelling parameters body).2 } plan rfl rfl
    hclose ⟨rfl, rfl, rfl⟩

/-- An action that leaves the store alone. -/
theorem quiet (h : x.Quiet) (hm : m.store.Charted good plan) :
    Follows good env x x m plan fun _ st plan' => m.store = st ∧ plan = plan' := by
  have hkeeps : m.store.Keeps good env plan (x.final m).store plan := by
    rw [h m]
    exact .refl hm
  have hstore := h m
  cases hx : x m with
  | ok a m' =>
      rw [Exec.final_of_ok hx] at hkeeps hstore
      exact .returns a m' plan hx hx hkeeps ⟨hstore.symm, rfl⟩
  | error e m' =>
      rw [Exec.final_of_error hx] at hkeeps
      exact .stops e m' plan hx hx hkeeps

theorem callIntrinsic {i : Intrinsic} {arguments : List Value} {span : Span}
    (hm : m.store.Charted good plan) :
    Follows good env (Exec.callIntrinsic i arguments span) (Exec.callIntrinsic i arguments span)
      m plan fun v st plan' => v.Charted good st plan' ∧ m.store = st ∧ plan = plan' := by
  have hwrite : ∀ text, Follows good env (Exec.write text span) (Exec.write text span) m plan
      fun _ st plan' => m.store = st ∧ plan = plan' :=
    fun text => .quiet (Exec.quiet_write text span) hm
  unfold Exec.callIntrinsic Exec.callIntrinsicWith
  split
  · exact (hwrite _).bind fun _ _ _ hkeeps hsame => .pure hkeeps.charted ⟨trivial, hsame⟩
  · exact (hwrite _).bind fun _ _ _ hkeeps hsame => .pure hkeeps.charted ⟨trivial, hsame⟩
  · have hread : Follows good env (Exec.readInteger span) (Exec.readInteger span) m plan
        fun _ st plan' => m.store = st ∧ plan = plan' := .quiet (Exec.quiet_readInteger span) hm
    exact hread.bind fun _ _ _ hkeeps hsame => .pure hkeeps.charted ⟨trivial, hsame⟩
  · exact .fail hm

end Follows

/-! ## Constructs

Each construct is evaluated by way of evaluation of what nests in it. -/

/-- What the innermost region of the table declares is still declared when it is closed. -/
def SymbolTable.Closes (t : SymbolTable) (closing : List Region) : Prop :=
  ∀ c ∈ closing.head?, ∀ name, t.current.declares name = true → c.declares name = true

theorem SymbolTable.closes_current (t : SymbolTable) (closing : List Region) :
    t.Closes (t.current :: closing) := by
  intro c hc name hname
  cases hc
  exact hname

namespace Store.At

variable {good : Use → Prop} {st : Store} {plan : List Region} {env : ScopeId} {t : SymbolTable}
  {closing : List Region}

theorem close (h : st.At good plan env t closing) (home : ScopeId) (spelling : String)
    (parameters : List String) (body : Node) :
    (st.close home spelling parameters body).2.At good plan env t closing := by
  refine ⟨h.charted.close home spelling parameters body, ?_⟩
  refine h.mirrors.mono (.close _ _ _ _ _) List.prefix_rfl fun _ j _ name hname => ?_
  rw [Store.binds_close] at hname
  exact hname

/-- A declaration is followed by binding its name. -/
theorem declare (h : st.At good plan env t closing) {s : Symbol} (v? : Option Value)
    (hcloses : (t.declare s).Closes closing)
    (hv : ∀ v, v? = some v → v.Charted good (st.put env s.name v?) plan) :
    st.Keeps good env plan (st.put env s.name v?) plan ∧
      (st.put env s.name v?).At good plan env (t.declare s) closing := by
  have hplanned : ∀ c, plan[env]? = some c → c.declares s.name = true := by
    intro c hc
    refine hcloses c (h.mirrors.planned.symm.trans hc) s.name ?_
    exact SymbolTable.declares_current_declare.2 (.inl rfl)
  have hcharted := h.charted.put hplanned hv
  refine ⟨⟨.put _ _ _ _, List.prefix_rfl, hcharted, ?_⟩, hcharted, h.mirrors.declare s v?⟩
  intro id _ hne name hname
  obtain ⟨heq, -⟩ | hname := Store.binds_put hname
  · exact absurd heq.symm hne
  · exact hname

/-- An assignment puts a value in the place of another one, in a scope that binds the name. -/
theorem assign (h : st.At good plan env t closing) {name : String} {v : Value}
    (hbinds : st.binds (st.owner env name) name = true) (hv : v.Charted good st plan) :
    st.Keeps good env plan (st.assign env name v) plan ∧
      (st.assign env name v).At good plan env t closing := by
  have hput := Store.Extends.put st (st.owner env name) name (some v)
  have hcharted : (st.assign env name v).Charted good plan := by
    refine h.charted.put (fun c hc => h.charted.planned.bounded _ c _ hc hbinds) ?_
    intro w hw
    cases hw
    exact hv.mono hput List.prefix_rfl
  refine ⟨⟨hput, List.prefix_rfl, hcharted, ?_⟩, hcharted, ?_⟩
  · exact fun _ _ _ _ hname => Store.binds_of_put hbinds hname
  · exact h.mirrors.mono hput List.prefix_rfl fun _ _ _ _ hname => Store.binds_of_put hbinds hname

/-- The frame of a call follows the region of the function, inside of the regions that the
home of the function follows. -/
theorem frame {home : ScopeId} {parameters : List Node} {values : List Value} {c : Region}
    (hcharted : st.Charted good plan) (hhome : st.Mirrors plan home false t.regions closing)
    (hdeclared : ∀ name ∈ parameters.map Node.text, c.declares name = true)
    (hlength : parameters.length = values.length)
    (hvalues : ∀ v ∈ values, v.Charted good st plan) :
    let frame := st.scopes.size
    ((st.child home).2.bindAll frame ((parameters.map Node.text).zip values)).At good
      (plan ++ [c]) frame ((t.push .function).declareParameters parameters) (c :: closing) := by
  intro frame
  have hchild : (st.child home).2.Mirrors (plan ++ [c]) frame true (t.push .function).regions
      (c :: closing) := Store.Mirrors.child .function hhome hcharted.planned c
  refine ⟨(hcharted.child home c).bindAll ?_ ?_, hchild.declareParameters hlength⟩
  · intro name hname c' hc'
    obtain rfl : c = c' := by simpa [frame, ← hcharted.planned.length] using hc'
    obtain ⟨x, hx, rfl⟩ := List.mem_map.1 hname
    exact hdeclared _ (List.of_mem_zip hx).1
  · intro v hv
    obtain ⟨x, hx, rfl⟩ := List.mem_map.1 hv
    exact (hvalues _ (List.of_mem_zip hx).2).mono (.child _ _) (List.prefix_append _ _)

/-- The owner of a name that is resolved lies at one of the depths of its use. -/
theorem ownedAt (h : st.At good plan env t closing) (place : Span) {name : String}
    (hsees : t.sees name = true) :
    let u : Use := ⟨place, name, t, closing⟩
    u.ownedAt u.depths st env = true := by
  intro u
  obtain ⟨d, hd⟩ := SymbolTable.exists_depthOf_of_sees hsees
  obtain ⟨hbinds, hdepth⟩ := h.mirrors.owner h.charted.planned hd
  have hdepths : u.depths = d :: u.rivals := by
    unfold Use.depths Use.depth?
    rw [hd]
  unfold Use.ownedAt
  rw [hdepths]
  exact Bool.and_eq_true_iff.2 ⟨hbinds, List.contains_iff_mem.2 (List.mem_cons.2 hdepth)⟩

end Store.At

/-- A run in a scope has come to a value and stands where resolution has the table. -/
structure Ends (good : Use → Prop) (env : ScopeId) (t : SymbolTable) (closing : List Region)
    (v : Value) (st : Store) (plan : List Region) : Prop where
  value : v.Charted good st plan
  stands : st.At good plan env t closing

/-- Evaluation of a node whose uses are good, where resolution has the table before it, ends
where resolution has the table after it. -/
def FollowsScopes (good : Use → Prop) (found run : Node → ScopeId → Exec Value) : Prop :=
  ∀ {role : Role} {n : Node} {t t' : SymbolTable} {closing : List Region} {env : ScopeId}
    {m : Machine} {plan : List Region},
    WellFormed .unrestricted role n → t.walk n = .ok t' → (∀ u ∈ t.uses closing n, good u) →
      t'.Closes closing → m.store.At good plan env t closing →
      Follows good env (found n env) (run n env) m plan
        (Ends good env t' closing)

namespace FollowsScopes

variable {good : Use → Prop} {find : Finder} {found run : Node → ScopeId → Exec Value}
  {t t' : SymbolTable} {closing : List Region} {env : ScopeId} {m : Machine} {plan : List Region}

/-- Reading a name whose use the finder is right about. -/
theorem readFound {name : String} {place : Span}
    (hright : find.RightAt ⟨place, name, t, closing⟩) (hsees : t.sees name = true)
    (hat : m.store.At find.RightAt plan env t closing) :
    Follows find.RightAt env (Exec.readFound find env name place) (Exec.readName env name place)
      m plan fun v st plan' => v.Charted find.RightAt st plan' ∧ m.store = st ∧ plan = plan' := by
  have hfound := Exec.readFound_of_found (hright m.store env (hat.ownedAt place hsees))
  have hread := Exec.readName_eq env name place m
  cases hlookup : m.store.lookup env name with
  | assigned v =>
      rw [hlookup] at hread
      refine .returns v m plan (hfound.trans hread) hread (.refl hat.charted) ⟨?_, rfl, rfl⟩
      exact hat.charted.values _ _ _ (Store.get?_of_lookup hlookup)
  | unassigned | undefined =>
      rw [hlookup] at hread
      exact .stops _ m plan (hfound.trans hread) hread (.refl hat.charted)

/-- An expression leaves its table as it is. -/
theorem expression (h : FollowsScopes good found run) {n : Node}
    (hn : WellFormed .unrestricted .expression n) (hwalk : t.walk n = .ok t')
    (hgood : ∀ u ∈ t.uses closing n, good u) (hcloses : t.Closes closing)
    (hat : m.store.At good plan env t closing) :
    t' = t ∧ Follows good env (found n env) (run n env) m plan
      (Ends good env t closing) := by
  obtain rfl : t' = t := SymbolTable.leaves_of_walk hn hwalk
  exact ⟨rfl, h hn hwalk hgood hcloses hat⟩

theorem operand (h : FollowsScopes good found run) {n : Node}
    (hn : WellFormed .unrestricted .expression n) (hwalk : t.walk n = .ok t')
    (hgood : ∀ u ∈ t.uses closing n, good u) (hcloses : t.Closes closing)
    (hat : m.store.At good plan env t closing) :
    t' = t ∧ Follows good env (Exec.operand found n env) (Exec.operand run n env) m plan
      fun _ st plan' => st.At good plan' env t closing := by
  obtain ⟨rfl, heval⟩ := h.expression hn hwalk hgood hcloses hat
  refine ⟨rfl, heval.bind ?_⟩
  rintro v m₁ plan₁ hkeeps ⟨-, hat₁⟩
  refine (Follows.quiet (Exec.quiet_ofExcept _) hkeeps.charted).weaken ?_
  rintro _ _ _ - ⟨rfl, rfl⟩
  exact hat₁

theorem binary (h : FollowsScopes good found run) {op : Operator}
    {place : Span} {left right : Node} (hleft : WellFormed .unrestricted .expression left)
    (hright : WellFormed .unrestricted .expression right)
    (hwalk : t.walk (.inner (.binary op) place [left, right]) = .ok t')
    (hgood : ∀ u ∈ t.uses closing (.inner (.binary op) place [left, right]), good u)
    (hcloses : t.Closes closing) (hat : m.store.At good plan env t closing) :
    Follows good env (Exec.binary found op (.inner (.binary op) place [left, right]) env)
      (Exec.binary run op (.inner (.binary op) place [left, right]) env) m plan
      (Ends good env t closing) := by
  obtain ⟨t₁, hwalkLeft, hwalkRight⟩ := SymbolTable.walk_binary hwalk
  obtain ⟨hgoodLeft, hgoodRest⟩ := SymbolTable.forall_usesAll_cons hwalkLeft hgood
  obtain ⟨hgoodRight, -⟩ := SymbolTable.forall_usesAll_cons hwalkRight hgoodRest
  obtain ⟨rfl, hevalLeft⟩ := h.operand hleft hwalkLeft hgoodLeft hcloses hat
  have hevalRight : ∀ {m' plan'}, m'.store.At good plan' env t₁ closing →
      Follows good env (Exec.operand found right env) (Exec.operand run right env) m' plan'
        fun _ st plan' => st.At good plan' env t₁ closing :=
    fun hat => (h.operand hright hwalkRight hgoodRight hcloses hat).2
  refine .kidThen rfl (.kidThen rfl (hevalLeft.bind fun l m₁ plan₁ _ hat₁ => ?_))
  rcases op with op | op | op
  · refine (hevalRight hat₁).bind fun r m₂ plan₂ hkeeps hat₂ => ?_
    cases op.compute l r with
    | ok v => exact .pure hkeeps.charted ⟨trivial, hat₂⟩
    | error cause => exact .fail hkeeps.charted
  · exact (hevalRight hat₁).bind fun r m₂ plan₂ hkeeps hat₂ => .pure hkeeps.charted ⟨trivial, hat₂⟩
  · dsimp only
    split
    · exact .pure hat₁.charted ⟨trivial, hat₁⟩
    · exact (hevalRight hat₁).bind fun r m₂ plan₂ hkeeps hat₂ =>
        .pure hkeeps.charted ⟨trivial, hat₂⟩

theorem assignment (h : FollowsScopes find.RightAt found run) {target : String}
    {place equals : Span} {value : Node} (hvalue : WellFormed .unrestricted .expression value)
    (hwalk : t.walk (.inner .assignment equals [.leaf .name target place, value]) = .ok t')
    (hgood : ∀ u ∈ t.uses closing (.inner .assignment equals [.leaf .name target place, value]),
      find.RightAt u)
    (hcloses : t.Closes closing) (hat : m.store.At find.RightAt plan env t closing) :
    Follows find.RightAt env
      (Exec.assignmentFound find found
        (.inner .assignment equals [.leaf .name target place, value]) env)
      (Exec.assignment run (.inner .assignment equals [.leaf .name target place, value]) env) m plan
      (Ends find.RightAt env t closing) := by
  obtain ⟨hsees, hwalkValue⟩ := SymbolTable.walk_assignment hwalk
  obtain ⟨hgoodTarget, hgoodRest⟩ :=
    SymbolTable.forall_usesAll_cons (SymbolTable.walk_name_of_sees place hsees) hgood
  obtain ⟨hgoodValue, -⟩ := SymbolTable.forall_usesAll_cons hwalkValue hgoodRest
  have hright : find.RightAt ⟨place, target, t, closing⟩ :=
    hgoodTarget _ (List.mem_singleton_self _)
  obtain ⟨rfl, heval⟩ := h.expression hvalue hwalkValue hgoodValue hcloses hat
  refine .kidThen rfl (.kidThen rfl (heval.bind ?_))
  rintro v m₁ plan₁ - ⟨hv, hat₁⟩
  -- The name is looked for once the value is there, in the store as it is then.
  have howned := hat₁.ownedAt place hsees
  obtain ⟨hkeeps, hat₂⟩ := hat₁.assign (Bool.and_eq_true_iff.1 howned).1 hv
  have hassign : Follows find.RightAt env
      (do
        let id ← Exec.locate find place target env
        Exec.updateStore fun st => st.bind id target v)
      (Exec.updateStore fun st => st.assign env target v) m₁ plan₁
      fun _ => Ends find.RightAt env t' closing v := by
    refine .startWith (Exec.locate_of_found (hright m₁.store env howned)) ?_
    exact .updateStore rfl hkeeps ⟨hv.mono hkeeps.grows hkeeps.plan, hat₂⟩
  exact hassign.bind fun _ m₂ plan₂ hkeeps₂ hpost => .pure hkeeps₂.charted hpost

/-- Arguments from left to right. -/
theorem arguments (h : FollowsScopes good found run) {ns : List Node}
    (hns : ∀ n ∈ ns, WellFormed .unrestricted .expression n) (hwalk : t.walkAll ns = .ok t')
    (hgood : ∀ u ∈ SymbolTable.usesAll t closing ns, good u) (hcloses : t.Closes closing)
    (hat : m.store.At good plan env t closing) :
    Follows good env (ns.mapM fun n => found n env) (ns.mapM fun n => run n env) m plan
      fun vs st plan' => (∀ v ∈ vs, v.Charted good st plan') ∧
        st.At good plan' env t closing := by
  induction ns generalizing t m plan with
  | nil => exact .pure hat.charted ⟨nofun, hat⟩
  | cons n ns ih =>
      obtain ⟨t₁, hwalkFirst, hwalkRest⟩ := SymbolTable.walkAll_cons hwalk
      obtain ⟨hgoodFirst, hgoodRest⟩ := SymbolTable.forall_usesAll_cons hwalkFirst hgood
      obtain ⟨rfl, heval⟩ :=
        h.expression (hns n List.mem_cons_self) hwalkFirst hgoodFirst hcloses hat
      rw [List.mapM_cons, List.mapM_cons]
      refine heval.bind ?_
      rintro v m₁ plan₁ - ⟨hv, hat₁⟩
      have hrest := ih (fun x hx => hns x (List.mem_cons_of_mem _ hx)) hwalkRest hgoodRest hcloses
        hat₁
      refine hrest.bind ?_
      rintro vs m₂ plan₂ hkeeps ⟨hvs, hat₂⟩
      refine .pure hkeeps.charted ⟨List.forall_mem_cons.2 ⟨?_, hvs⟩, hat₂⟩
      exact hv.mono hkeeps.grows hkeeps.plan

/-- The body of a function runs in a frame of its own, so that afterwards no scope from before
the call has new names. -/
theorem callFunction (h : FollowsScopes good found run) {f : Closure} {values : List Value}
    {span : Span} (hf : f.Charted good m.store plan)
    (hvalues : ∀ v ∈ values, v.Charted good m.store plan) (hm : m.store.Charted good plan) :
    Follows good env (Exec.callFunction found f values span) (Exec.callFunction run f values span)
      m plan fun v st plan' => v.Charted good st plan' ∧
        m.store.Keeps good m.store.scopes.size plan st plan' := by
  obtain ⟨hbody, t, t', closing, parameters, hparameters, hhome, hwalk, hgood⟩ := hf
  unfold Exec.callFunction
  rw [← hparameters, List.length_map]
  split
  next hlength =>
    let frame := m.store.scopes.size
    let pairs := (parameters.map Node.text).zip values
    have hdeclared : ∀ name ∈ parameters.map Node.text, t'.current.declares name = true := by
      intro name hname
      refine SymbolTable.declares_of_walk hbody hwalk ?_
      exact SymbolTable.declares_current_declareParameters.2 (.inl hname)
    have hat : ((m.store.child f.home).2.bindAll frame pairs).At good (plan ++ [t'.current]) frame
        ((t.push .function).declareParameters parameters) (t'.current :: closing) :=
      .frame hm hhome hdeclared hlength hvalues
    have hbind : Follows good frame
        (Exec.updateStore fun st => st.bindAll frame pairs)
        (Exec.updateStore fun st => st.bindAll frame pairs)
        { m with store := (m.store.child f.home).2 } (plan ++ [t'.current])
        fun _ st plan' => st.At good plan' frame
          ((t.push .function).declareParameters parameters) (t'.current :: closing) := by
      refine .updateStore rfl ⟨.bindAll _ frame pairs, List.prefix_rfl, hat.charted, ?_⟩ hat
      exact fun _ _ hne _ hname => Store.binds_bindAll_of_ne hne.symm hname
    refine .newScopeThen t'.current hm (hbind.bind fun _ m₁ plan₁ _ hat₁ => ?_)
    refine (h hbody hwalk hgood (t'.closes_current closing) hat₁).weaken ?_
    exact fun v st plan' _ hends => hends.value
  next => exact .fail hm

theorem call (h : FollowsScopes find.RightAt found run) {callee : String} {place opening : Span}
    {ns : List Node} (hns : ∀ n ∈ ns, WellFormed .unrestricted .expression n)
    (hwalk : t.walk ⟨.call, callee, place, [.inner .arguments opening ns]⟩ = .ok t')
    (hgood : ∀ u ∈ t.uses closing ⟨.call, callee, place, [.inner .arguments opening ns]⟩,
      find.RightAt u)
    (hcloses : t.Closes closing) (hat : m.store.At find.RightAt plan env t closing) :
    Follows find.RightAt env
      (Exec.callFound find found ⟨.call, callee, place, [.inner .arguments opening ns]⟩ env)
      (Exec.call run ⟨.call, callee, place, [.inner .arguments opening ns]⟩ env) m plan
      (Ends find.RightAt env t closing) := by
  obtain ⟨hsees, hwalkArguments⟩ := SymbolTable.walk_call hwalk
  obtain ⟨hright, hgoodList⟩ := List.forall_mem_cons.1 hgood
  have hgoodArguments : ∀ u ∈ SymbolTable.usesAll t closing ns, find.RightAt u :=
    (List.forall_mem_append.1 hgoodList).1
  refine (readFound hright hsees hat).bind ?_
  rintro v m₁ _ - ⟨hv, hstore, rfl⟩
  rw [hstore] at hat
  refine .kidThen rfl ((h.arguments hns hwalkArguments hgoodArguments hcloses hat).bind ?_)
  rintro vs m₂ plan₂ hkeeps ⟨hvs, hat₂⟩
  cases v with
  | function f =>
      have hf : f.Charted find.RightAt m₂.store plan₂ :=
        Closure.Charted.mono hv hkeeps.grows hkeeps.plan
      refine (h.callFunction hf hvs hat₂.charted).weaken ?_
      rintro w st plan₃ - ⟨hw, hkeeps₂⟩
      exact ⟨hw, hkeeps₂.resume (Nat.le_refl _) hat₂⟩
  | intrinsic i =>
      refine (Follows.callIntrinsic hat₂.charted).weaken ?_
      rintro w st plan₃ - ⟨hw, rfl, rfl⟩
      exact ⟨hw, hat₂⟩
  | int | str | unit => exact .fail hat₂.charted

/-- Statements one after another, each where the one before it ended. -/
theorem sequence (h : FollowsScopes good found run) {ns : List Node}
    (hns : ∀ n ∈ ns, WellFormed .unrestricted .statement n) (hwalk : t.walkAll ns = .ok t')
    (hgood : ∀ u ∈ SymbolTable.usesAll t closing ns, good u) (hcloses : t'.Closes closing)
    (hat : m.store.At good plan env t closing) {v : Value}
    (hv : v.Charted good m.store plan) :
    Follows good env (ns.foldlM (fun _ n => found n env) v) (ns.foldlM (fun _ n => run n env) v)
      m plan (Ends good env t' closing) := by
  induction ns generalizing t m plan v with
  | nil =>
      cases hwalk
      exact .pure hat.charted ⟨hv, hat⟩
  | cons n ns ih =>
      obtain ⟨t₁, hwalkFirst, hwalkRest⟩ := SymbolTable.walkAll_cons hwalk
      obtain ⟨hgoodFirst, hgoodRest⟩ := SymbolTable.forall_usesAll_cons hwalkFirst hgood
      obtain ⟨hn, hns⟩ := List.forall_mem_cons.1 hns
      have hclosesFirst : t₁.Closes closing := fun c hc name hname =>
        hcloses c hc name (SymbolTable.declares_of_walkAll hns hwalkRest hname)
      rw [List.foldlM_cons, List.foldlM_cons]
      refine (h hn hwalkFirst hgoodFirst hclosesFirst hat).bind ?_
      rintro w m₁ plan₁ - ⟨hw, hat₁⟩
      exact ih hns hwalkRest hgoodRest hat₁ hw

/-- A block in a scope of its own. -/
theorem inNewScope (h : FollowsScopes good found run) {block : Node}
    (hblock : WellFormed .unrestricted .block block) (hwalk : (t.push .block).walk block = .ok t')
    (hgood : ∀ u ∈ (t.push .block).uses (t'.current :: closing) block, good u)
    (hat : m.store.At good plan env t closing) :
    Follows good env (Exec.inNewScope found block env) (Exec.inNewScope run block env) m plan
      (Ends good env t closing) := by
  have hinside : (m.store.child env).2.At good (plan ++ [t'.current]) m.store.scopes.size
      (t.push .block) (t'.current :: closing) :=
    ⟨hat.charted.child env t'.current, hat.mirrors.child .block hat.charted.planned t'.current⟩
  have heval : Follows good m.store.scopes.size (found block m.store.scopes.size)
      (run block m.store.scopes.size) { m with store := (m.store.child env).2 }
      (plan ++ [t'.current]) fun v st plan' => v.Charted good st plan' := by
    refine (h hblock hwalk hgood (t'.closes_current closing) hinside).weaken ?_
    exact fun v st plan' _ hends => hends.value
  refine (Follows.newScopeThen t'.current hat.charted heval).weaken ?_
  rintro v st plan' - ⟨hv, hkeeps⟩
  exact ⟨hv, hkeeps.resume (Nat.le_refl _) hat⟩

theorem condition (h : FollowsScopes good found run) (construct : Keyword) {test : Node}
    (htest : WellFormed .unrestricted .expression test) (hwalk : t.walk test = .ok t)
    (hgood : ∀ u ∈ t.uses closing test, good u) (hcloses : t.Closes closing)
    (hat : m.store.At good plan env t closing) :
    Follows good env (Exec.condition found construct test env)
      (Exec.condition run construct test env) m plan
      fun _ st plan' => st.At good plan' env t closing := by
  refine (h htest hwalk hgood hcloses hat).bind ?_
  rintro v m₁ plan₁ - ⟨-, hat₁⟩
  cases v with
  | int n => exact .pure hat₁.charted hat₁
  | str | function | intrinsic | unit => exact .fail hat₁.charted

/-- Every round of a loop ends where it began. -/
theorem loop (h : FollowsScopes good found run) {rounds : Nat} {keyword : Span} {test body : Node}
    (htest : WellFormed .unrestricted .expression test)
    (hbody : WellFormed .unrestricted .block body)
    (hwalk : t.walk (.inner .loop keyword [test, body]) = .ok t')
    (hgood : ∀ u ∈ t.uses closing (.inner .loop keyword [test, body]), good u)
    (hcloses : t'.Closes closing) (hat : m.store.At good plan env t closing) :
    Follows good env (Exec.loop found rounds (.inner .loop keyword [test, body]) env)
      (Exec.loop run rounds (.inner .loop keyword [test, body]) env) m plan
      (Ends good env t' closing) := by
  obtain ⟨t₁, t₂, hwalkTest, hwalkBody, rfl⟩ := SymbolTable.walk_loop hwalk
  obtain rfl : t₁ = t := SymbolTable.leaves_of_walk htest hwalkTest
  obtain ⟨hgoodTest, hgoodBody⟩ := SymbolTable.forall_uses_loop hwalkTest hwalkBody hgood
  rw [SymbolTable.pop_of_walk_block hbody hwalkBody] at hcloses ⊢
  have hrepeat : Follows good env
      (Exec.repeatWhile (Exec.condition found .loop test env)
        (discard (Exec.inNewScope found body env)) rounds)
      (Exec.repeatWhile (Exec.condition run .loop test env)
        (discard (Exec.inNewScope run body env)) rounds) m plan
      fun _ st plan' => st.At good plan' env t₁ closing := by
    induction rounds generalizing m plan with
    | zero => exact .stops .outOfFuel m plan rfl rfl (.refl hat.charted)
    | succ rounds ih =>
        refine (h.condition .loop htest hwalkTest hgoodTest hcloses hat).bind ?_
        intro goes m₁ plan₁ _ hat₁
        cases goes with
        | false => exact .pure hat₁.charted hat₁
        | true =>
            have hround : Follows good env (discard (Exec.inNewScope found body env))
                (discard (Exec.inNewScope run body env)) m₁ plan₁
                fun _ st plan' => st.At good plan' env t₁ closing := by
              refine (h.inNewScope hbody hwalkBody hgoodBody hat₁).bind ?_
              rintro _ m₂ plan₂ - ⟨-, hat₂⟩
              exact .pure hat₂.charted hat₂
            exact hround.bind fun _ m₂ plan₂ _ hat₂ => ih hat₂
  refine .kidThen rfl (.kidThen rfl (hrepeat.bind fun _ m₁ plan₁ _ hat₁ => ?_))
  exact .pure hat₁.charted ⟨trivial, hat₁⟩

/-- A conditional, by way of what it does when its test fails. -/
theorem conditional (h : FollowsScopes good found run) {keyword : Span} {test body : Node}
    (rest : List Node) (htest : WellFormed .unrestricted .expression test)
    (hbody : WellFormed .unrestricted .block body) (hwalkTest : t.walk test = .ok t)
    (hwalkBody : (t.push .block).walk body = .ok t')
    (hgoodTest : ∀ u ∈ t.uses closing test, good u)
    (hgoodBody : ∀ u ∈ (t.push .block).uses (t'.current :: closing) body, good u)
    (hcloses : t.Closes closing) (hat : m.store.At good plan env t closing)
    (hrest : ∀ {m : Machine} {plan : List Region}, m.store.At good plan env t closing →
      Follows good env (match rest[0]? with | some n => found n env | none => Pure.pure .unit)
        (match rest[0]? with | some n => run n env | none => Pure.pure .unit) m plan
        (Ends good env t closing)) :
    Follows good env
      (Exec.conditional found (.inner .conditional keyword (test :: body :: rest)) env)
      (Exec.conditional run (.inner .conditional keyword (test :: body :: rest)) env) m plan
      (Ends good env t closing) := by
  have hevalTest := h.condition .conditional htest hwalkTest hgoodTest hcloses hat
  refine .kidThen rfl (hevalTest.bind fun goes m₁ plan₁ _ hat₁ => ?_)
  cases goes with
  | true => exact .kidThen rfl (h.inNewScope hbody hwalkBody hgoodBody hat₁)
  | false => exact hrest hat₁

theorem definition {target : String} {place keyword : Span}
    (hwalk : t.walk (.inner .definition keyword [.leaf .name target place]) = .ok t')
    (hcloses : t'.Closes closing) (hat : m.store.At good plan env t closing) :
    Follows good env (Exec.definition (.inner .definition keyword [.leaf .name target place]) env)
      (Exec.definition (.inner .definition keyword [.leaf .name target place]) env) m plan
      (Ends good env t' closing) := by
  obtain rfl := SymbolTable.walk_definition hwalk
  obtain ⟨hkeeps, hat₁⟩ := hat.declare none hcloses nofun
  have hdefine : Follows good env (Exec.updateStore fun st => st.define env target)
      (Exec.updateStore fun st => st.define env target) m plan
      fun _ st plan' => st.At good plan' env (t.declare ⟨target, .var, place, 0⟩) closing :=
    .updateStore rfl hkeeps hat₁
  exact .kidThen rfl (hdefine.bind fun _ m₁ plan₁ _ hat₁ => .pure hat₁.charted ⟨trivial, hat₁⟩)

/-- A function is resolved where its home stands by then, its own declaration included. The
home may go on, and the function keeps to what it was resolved with. -/
theorem function {spelling : String} {keyword opening : Span} {parameters : List Node}
    {body : Node} (hbody : WellFormed .unrestricted .block body)
    (hwalk : t.walk ⟨.function, spelling, keyword, [.inner .parameters opening parameters, body]⟩ =
      .ok t')
    (hgood : ∀ u ∈ t.uses closing
      ⟨.function, spelling, keyword, [.inner .parameters opening parameters, body]⟩, good u)
    (hcloses : t'.Closes closing) (hat : m.store.At good plan env t closing) :
    Follows good env
      (Exec.function
        ⟨.function, spelling, keyword, [.inner .parameters opening parameters, body]⟩ env)
      (Exec.function
        ⟨.function, spelling, keyword, [.inner .parameters opening parameters, body]⟩ env) m plan
      (Ends good env t' closing) := by
  obtain ⟨t₁, hwalkBody, rfl⟩ := SymbolTable.walk_function hwalk
  have hgoodBody := SymbolTable.forall_uses_function hwalkBody hgood
  have hleaves : SymbolTable.SameOutside _ t₁ := SymbolTable.leaves_of_walk hbody hwalkBody
  rw [((SymbolTable.SameOutside.declareParameters _ _).trans hleaves).pop_eq] at hcloses ⊢
  refine .kidThen rfl (.kidThen rfl ((Follows.newFunction hat.charted).bind ?_))
  rintro f m₁ _ - ⟨hf, hstore, rfl⟩
  have hat₁ : m₁.store.At good plan env t closing := hstore ▸ hat.close env _ _ _
  have hcharted : Value.Charted good (m₁.store.put env spelling (some (.function f))) plan
      (.function f) := by
    -- The home may declare more from here on, so the function has its regions frozen.
    have hmirrors := hat₁.mirrors.declare ⟨spelling, .function, keyword, 0⟩ (some (.function f))
    have hhome := hmirrors.frozen
    rw [hf] at hhome ⊢
    exact ⟨hbody, _, t₁, closing, parameters, rfl, hhome, hwalkBody, hgoodBody⟩
  obtain ⟨hkeeps, hat₂⟩ := hat₁.declare (some (.function f)) hcloses
    fun v hv => Option.some.inj hv ▸ hcharted
  have hbind : Follows good env (Exec.updateStore fun st => st.bind env spelling (.function f))
      (Exec.updateStore fun st => st.bind env spelling (.function f)) m₁ plan
      fun _ st plan' =>
        st.At good plan' env (t.declare ⟨spelling, .function, keyword, 0⟩) closing :=
    .updateStore rfl hkeeps hat₂
  exact hbind.bind fun _ m₂ plan₂ _ hat₂ => .pure hat₂.charted ⟨trivial, hat₂⟩

theorem number {digits : String} {place : Span}
    (hat : m.store.At good plan env t closing) :
    Follows good env (Exec.number (.leaf .number digits place))
      (Exec.number (.leaf .number digits place)) m plan
      (Ends good env t closing) := by
  unfold Exec.number
  split
  · exact .pure hat.charted ⟨trivial, hat⟩
  · exact .fail hat.charted

/-- One level of evaluation follows its regions if the level below does. -/
theorem step (h : FollowsScopes find.RightAt found run) (rounds : Nat) :
    FollowsScopes find.RightAt (Exec.stepFound find found rounds) (Exec.step run rounds) := by
  intro role n t t' closing env m plan hn hwalk hgood hcloses hat
  -- Only an expression that stands for a statement is the same node again and needs the
  -- induction; what nests in the node is left to the level below.
  induction hn generalizing t t' closing m plan with
  | number =>
      cases hwalk
      exact number hat
  | text =>
      cases hwalk
      exact .pure hat.charted ⟨trivial, hat⟩
  | name | parameter =>
      obtain ⟨hsees, rfl⟩ := SymbolTable.walk_name hwalk
      have hright := hgood _ (List.mem_singleton_self _)
      refine (readFound hright hsees hat).weaken ?_
      rintro v _ _ - ⟨hv, rfl, rfl⟩
      exact ⟨hv, hat⟩
  | binary hleft hright =>
      obtain rfl : t' = t := SymbolTable.leaves_of_walk (.binary hleft hright) hwalk
      exact h.binary hleft hright hwalk hgood hcloses hat
  | assignment admitted hvalue =>
      obtain rfl : t' = t := SymbolTable.leaves_of_walk (.assignment admitted hvalue) hwalk
      exact h.assignment hvalue hwalk hgood hcloses hat
  | call admitted harguments =>
      obtain rfl : t' = t := SymbolTable.leaves_of_walk (.call admitted harguments) hwalk
      exact h.call harguments hwalk hgood hcloses hat
  | evaluation _ ih => exact ih hwalk hgood hcloses hat
  | definition => exact definition hwalk hcloses hat
  | conditional htest hbody =>
      obtain ⟨t₁, t₂, hwalkTest, hwalkBody, rfl⟩ := SymbolTable.walk_conditional hwalk
      obtain rfl : t₁ = t := SymbolTable.leaves_of_walk htest hwalkTest
      obtain ⟨hgoodTest, hgoodBody, -⟩ :=
        SymbolTable.forall_uses_conditional hwalkTest hwalkBody hgood
      rw [SymbolTable.pop_of_walk_block hbody hwalkBody] at hcloses ⊢
      refine h.conditional [] htest hbody hwalkTest hwalkBody hgoodTest hgoodBody hcloses hat ?_
      exact fun hat' => .pure hat'.charted ⟨trivial, hat'⟩
  | conditionalElse htest hbody hotherwise =>
      obtain ⟨t₁, t₂, hwalkTest, hwalkBody, hwalkElse⟩ := SymbolTable.walk_conditionalElse hwalk
      obtain rfl : t₁ = t := SymbolTable.leaves_of_walk htest hwalkTest
      obtain ⟨hgoodTest, hgoodBody, hgoodRest⟩ :=
        SymbolTable.forall_uses_conditional hwalkTest hwalkBody hgood
      rw [SymbolTable.pop_of_walk_block hbody hwalkBody] at hwalkElse hgoodRest
      obtain rfl : t' = t₁ := SymbolTable.leaves_of_walk hotherwise hwalkElse
      obtain ⟨hgoodElse, -⟩ := SymbolTable.forall_usesAll_cons hwalkElse hgoodRest
      refine h.conditional [_] htest hbody hwalkTest hwalkBody hgoodTest hgoodBody hcloses hat ?_
      exact fun hat' => h hotherwise hwalkElse hgoodElse hcloses hat'
  | loop htest hbody => exact h.loop htest hbody hwalk hgood hcloses hat
  | function _ _ hbody => exact function hbody hwalk hgood hcloses hat
  | alternative hbody =>
      obtain ⟨t₁, hwalkBody, rfl⟩ := SymbolTable.walk_alternative hwalk
      have hgoodBody := SymbolTable.forall_uses_alternative hwalkBody hgood
      rw [SymbolTable.pop_of_walk_block hbody hwalkBody]
      exact .kidThen rfl (h.inNewScope hbody hwalkBody hgoodBody hat)
  | statement hinside =>
      have hwalkInside := SymbolTable.walk_statement hwalk
      obtain ⟨hgoodInside, -⟩ := SymbolTable.forall_usesAll_cons hwalkInside hgood
      exact .kidThen rfl (h hinside hwalkInside hgoodInside hcloses hat)
  | block _ hstatements =>
      exact h.sequence hstatements (SymbolTable.walk_block hwalk) hgood hcloses hat trivial
  | program _ hstatements =>
      exact h.sequence hstatements (SymbolTable.walk_program hwalk) hgood hcloses hat trivial

end FollowsScopes

/-- Evaluation follows its regions, whatever the fuel. -/
theorem followsScopes_eval (find : Finder) (fuel : Nat) :
    FollowsScopes find.RightAt (evalFound find fuel) (eval fuel) := by
  induction fuel with
  | zero =>
      intro role n t t' closing env m plan _ _ _ _ hat
      exact .stops .outOfFuel m plan rfl rfl (.refl hat.charted)
  | succ fuel ih => exact ih.step fuel

end ScopeLang
