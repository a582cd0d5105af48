-- SUMMARY: Evaluation that announces what it is about to do, and stops if whoever watches says so.
import ScopeLang.Program
import ScopeLang.Proofs.Coupling
import ScopeLang.Proofs.NameSafety

/-! # Watched evaluation

What a run does, apart from computing values, is to declare names, to assign to
names and to write texts. `evalWatched` announces each of these effects right
before it happens, and whoever watches may stop the run there. If nobody ever
does, this is evaluation.

So a statement about what a run does on its way, and not only about the machine
it leaves, is a statement about where it stops if it is watched: the first effect
of some kind that the run comes to is the one at which it stops if these effects
are stopped.
-/

namespace ScopeLang

/-! ## Effects -/

/-- What a run is about to do. -/
inductive Effect
  /-- To declare a name in a scope, by a definition or a function that is evaluated there. -/
  | declare (scope : ScopeId) (name : String)
  /-- To assign to a name that is used in a scope. -/
  | assign (scope : ScopeId) (name : String)
  /-- To write a text for a call at a place. -/
  | write (place : Span) (text : String)
  deriving DecidableEq, Repr

/-- Who is asked about each effect, and on which machine it is to happen. The answer may be to
stop. -/
abbrev Watch := Effect → Machine → Option Stop

namespace Watch

/-- Nothing is stopped. -/
def never : Watch :=
  fun _ _ => none

/-- The effects that are marked are stopped, for the reason given. -/
def before (marked : Effect → Machine → Bool) (stop : Effect → Stop) : Watch :=
  fun e m => if marked e m then some (stop e) else none

theorem before_of_marked {marked : Effect → Machine → Bool} {stop : Effect → Stop} {e : Effect}
    {m : Machine} (h : marked e m = true) : before marked stop e m = some (stop e) :=
  if_pos h

theorem before_of_not_marked {marked : Effect → Machine → Bool} {stop : Effect → Stop}
    {e : Effect} {m : Machine} (h : ¬ marked e m = true) : before marked stop e m = none :=
  if_neg h

end Watch

/-! ## Evaluation -/

namespace Exec

section Watched

variable (watch : Watch) (eval : Node → ScopeId → Exec Value)

/-- Stop if whoever watches says so. -/
def announce (e : Effect) : Exec Unit := do
  match watch e (← get) with
  | some stop => throw stop
  | none => return ()

/-- Change the store, which has an effect. -/
def updateWatched (e : Effect) (f : Store → Store) : Exec Unit := do
  announce watch e
  updateStore f

def writeWatched (text : String) (span : Span) : Exec Unit := do
  announce watch (.write span text)
  write text span

def callIntrinsicWatched (i : Intrinsic) (arguments : List Value) (span : Span) : Exec Value :=
  callIntrinsicWith (writeWatched watch) i arguments span

def callWatched (n : Node) (env : ScopeId) : Exec Value :=
  callWith eval (readName env n.text n.span) (callIntrinsicWatched watch) n env

def definitionWatched (n : Node) (env : ScopeId) : Exec Value :=
  definitionWith (fun name =>
    updateWatched watch (.declare env name) fun st => st.define env name) n

def assignmentWatched (n : Node) (env : ScopeId) : Exec Value :=
  assignmentWith eval (fun target v =>
    updateWatched watch (.assign env target.text) fun st => st.assign env target.text v) n env

def functionWatched (n : Node) (env : ScopeId) : Exec Value :=
  functionWith (fun name v =>
    updateWatched watch (.declare env name) fun st => st.bind env name v) n env

/-- One level of evaluation, with its effects announced. -/
def stepWatched (rounds : Nat) (n : Node) (env : ScopeId) : Exec Value :=
  match n.tag with
  | .definition => definitionWatched watch n env
  | .assignment => assignmentWatched watch eval n env
  | .function => functionWatched watch n env
  | .call => callWatched watch eval n env
  | _ => step eval rounds n env

end Watched

end Exec

/-- Evaluate a node in a scope, with all effects announced. -/
def evalWatched (watch : Watch) : Nat → Node → ScopeId → Exec Value
  | 0, _, _ => throw .outOfFuel
  | fuel + 1, n, env => Exec.stepWatched watch (evalWatched watch fuel) fuel n env

/-- A marked effect is the first one of its kind that evaluating a node in a scope comes to,
and happens on the machine given. -/
structure ComesFirstTo (marked : Effect → Machine → Bool) (fuel : Nat) (n : Node) (env : ScopeId)
    (m : Machine) (e : Effect) (m' : Machine) : Prop where
  isMarked : marked e m' = true
  stops : ∀ stop, evalWatched (.before marked stop) fuel n env m = .error (stop e) m'

namespace Exec

variable {watch : Watch} {e : Effect} {m : Machine}

theorem announce_of_none (h : watch e m = none) : announce watch e m = .ok () m := by
  change (match watch e m with
    | some stop => throw stop
    | none => pure () : Exec Unit) m = _
  rw [h]
  rfl

theorem announce_of_some {stop : Stop} (h : watch e m = some stop) :
    announce watch e m = .error stop m := by
  change (match watch e m with
    | some stop => throw stop
    | none => pure () : Exec Unit) m = _
  rw [h]
  rfl

theorem updateWatched_of_none {f : Store → Store} (h : watch e m = none) :
    updateWatched watch e f m = .ok () { m with store := f m.store } :=
  bind_of_ok (announce_of_none h)

theorem updateWatched_of_some {f : Store → Store} {stop : Stop} (h : watch e m = some stop) :
    updateWatched watch e f m = .error stop m :=
  bind_of_error (announce_of_some h)

theorem writeWatched_of_none {text : String} {span : Span}
    (h : watch (.write span text) m = none) :
    writeWatched watch text span m = write text span m :=
  bind_of_ok (announce_of_none h)

theorem writeWatched_of_some {text : String} {span : Span} {stop : Stop}
    (h : watch (.write span text) m = some stop) :
    writeWatched watch text span m = .error stop m :=
  bind_of_error (announce_of_some h)

theorem updateWatched_never (e : Effect) (f : Store → Store) :
    updateWatched .never e f = updateStore f :=
  funext fun _ => updateWatched_of_none rfl

theorem writeWatched_never : writeWatched .never = write := by
  funext text span m
  exact writeWatched_of_none rfl

theorem callIntrinsicWatched_never : callIntrinsicWatched .never = callIntrinsic := by
  funext i arguments span
  rw [callIntrinsicWatched, writeWatched_never, callIntrinsic]

end Exec

/-- A run that nobody stops is evaluation. -/
theorem evalWatched_never (fuel : Nat) : evalWatched .never fuel = eval fuel := by
  induction fuel with
  | zero => rfl
  | succ fuel ih =>
      funext n env
      rw [evalWatched, eval, ih]
      unfold Exec.stepWatched
      split
      next htag =>
        rw [Exec.step, htag]
        simp only [Exec.definitionWatched, Exec.updateWatched_never]
        rfl
      next htag =>
        rw [Exec.step, htag]
        simp only [Exec.assignmentWatched, Exec.updateWatched_never]
        rfl
      next htag =>
        rw [Exec.step, htag]
        simp only [Exec.functionWatched, Exec.updateWatched_never]
        rfl
      next htag =>
        rw [Exec.step, htag]
        simp only [Exec.callWatched, Exec.callIntrinsicWatched_never]
        rfl
      next => rfl

end ScopeLang
