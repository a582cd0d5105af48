-- SUMMARY: The run-time scopes of a program and how names are found in them.
import ScopeLang.NameMap
import ScopeLang.Value

/-! # Stores

A store holds every scope that a run has created. A scope has its own bindings
and, unless it is the global one, a parent that is older than it; the scopes
from a scope outwards are its chain. A name is owned by the nearest scope of
the chain that binds it, and by the outermost one if none does. A binding may
be without a value: it is defined but not yet assigned.
-/

namespace ScopeLang

/-- A run-time scope. -/
structure Scope where
  parent : Option ScopeId := none
  bindings : NameMap (Option Value) := .empty
  /-- How many functions have been created in the scope. -/
  made : Nat := 0
  deriving Repr

/-- Every scope of a run; the number of a scope is its place. -/
structure Store where
  scopes : Array Scope
  deriving Repr

/-- What a name stands for in a scope. -/
inductive Lookup
  | assigned (v : Value)
  | unassigned
  | undefined
  deriving Repr

/-- Whether two names stand for the same. -/
def Lookup.same : Lookup → Lookup → Bool
  | .assigned v, .assigned w => v.same w
  | .unassigned, .unassigned => true
  | .undefined, .undefined => true
  | _, _ => false

namespace Store

/-- The number of the global scope. -/
def globalId : ScopeId := 0

/-- A store with an empty global scope and no other. -/
def empty : Store := ⟨#[{}]⟩

instance : Inhabited Store := ⟨empty⟩

/-! ## Chains -/

/-- The parent of a scope. Parents are older than their children. -/
def parent? (st : Store) (id : ScopeId) : Option ScopeId :=
  (st.scopes[id]?.bind Scope.parent).filter (· < id)

theorem parent?_lt {st : Store} {id p : ScopeId} (h : st.parent? id = some p) : p < id := by
  simpa using (Option.filter_eq_some_iff.1 h).2

/-- The scopes from a scope outwards. -/
def chain (st : Store) (id : ScopeId) : List ScopeId :=
  match _h : st.parent? id with
  | some p => id :: st.chain p
  | none => [id]
termination_by id
decreasing_by exact parent?_lt ‹_›

/-- How many scopes lie around a scope. -/
def depth (st : Store) (id : ScopeId) : Nat :=
  (st.chain id).length - 1

/-! ## A scope's own bindings -/

/-- The bindings of a scope itself. -/
def bindings (st : Store) (id : ScopeId) : NameMap (Option Value) :=
  (st.scopes[id]?.map Scope.bindings).getD .empty

/-- Whether the scope itself binds a name. -/
def binds (st : Store) (id : ScopeId) (name : String) : Bool :=
  (st.bindings id).contains name

/-- Whether the scope itself binds a name to a value. -/
def assigns (st : Store) (id : ScopeId) (name : String) : Bool :=
  ((st.bindings id).get? name).join.isSome

/-- Change one scope. -/
def modify (st : Store) (id : ScopeId) (f : Scope → Scope) : Store :=
  ⟨st.scopes.modify id f⟩

/-- Set the binding of a name in a scope itself. -/
def put (st : Store) (id : ScopeId) (name : String) (value? : Option Value) : Store :=
  st.modify id fun s => { s with bindings := s.bindings.insert name value? }

/-- Define a name in a scope, without a value even if it had one. -/
def define (st : Store) (id : ScopeId) (name : String) : Store :=
  st.put id name none

/-- Bind a name to a value in a scope. -/
def bind (st : Store) (id : ScopeId) (name : String) (v : Value) : Store :=
  st.put id name (some v)

/-- Bind several names, one after another. -/
def bindAll (st : Store) (id : ScopeId) (pairs : List (String × Value)) : Store :=
  pairs.foldl (fun st (name, v) => st.bind id name v) st

/-- Remove every binding of a scope. -/
def clear (st : Store) (id : ScopeId) : Store :=
  st.modify id fun s => { s with bindings := .empty }

/-! ## Names along the chain -/

/-- The scope that owns a name: the nearest one that binds it, or the outermost one. -/
def owner (st : Store) (id : ScopeId) (name : String) : ScopeId :=
  if st.binds id name then id
  else
    match _h : st.parent? id with
    | some p => st.owner p name
    | none => id
termination_by id
decreasing_by exact parent?_lt ‹_›

/-- What a name stands for, seen from a scope. -/
def lookup (st : Store) (id : ScopeId) (name : String) : Lookup :=
  match (st.bindings (st.owner id name)).get? name with
  | some (some v) => .assigned v
  | some none => .unassigned
  | none => .undefined

/-- Assign to a name in the scope that owns it. -/
def assign (st : Store) (id : ScopeId) (name : String) (v : Value) : Store :=
  st.bind (st.owner id name) name v

/-! ## New scopes and functions -/

/-- Create a scope inside another one. -/
def child (st : Store) (parent : ScopeId) : ScopeId × Store :=
  (st.scopes.size, ⟨st.scopes.push { parent := some parent }⟩)

/-- Create a function whose free names are looked up from a scope. -/
def close (st : Store) (home : ScopeId) (name : String) (parameters : List String) (body : Node) :
    Closure × Store :=
  let serial := (st.scopes[home]?.map Scope.made).getD 0
  (⟨name, parameters, body, home, serial⟩, st.modify home fun s => { s with made := s.made + 1 })

/-- The store a run starts with: the intrinsics are bound in the global scope. -/
def initial : Store :=
  Intrinsic.all.foldl (fun st i => st.bind globalId i.name (.intrinsic i)) empty

/-! ## What a change of one binding leaves alone -/

@[simp] theorem size_put (st : Store) (id : ScopeId) (name : String) (v : Option Value) :
    (st.put id name v).scopes.size = st.scopes.size := by
  simp [put, modify]

theorem getElem?_modify (st : Store) (id j : ScopeId) (f : Scope → Scope) :
    (st.modify id f).scopes[j]? = if id = j then st.scopes[j]?.map f else st.scopes[j]? := by
  simp only [modify, Array.getElem?_modify]

@[simp] theorem parent?_put (st : Store) (id j : ScopeId) (name : String) (v : Option Value) :
    (st.put id name v).parent? j = st.parent? j := by
  unfold parent? put
  rw [getElem?_modify]
  split
  · cases st.scopes[j]? <;> rfl
  · rfl

/-- A binding is seen in the scope it was put in. -/
theorem bindings_put_self (st : Store) {id : ScopeId} (h : id < st.scopes.size) (name : String)
    (v : Option Value) : (st.put id name v).bindings id = (st.bindings id).insert name v := by
  unfold bindings put
  rw [getElem?_modify]
  simp [h]

/-- A binding is not seen in the other scopes themselves. -/
theorem bindings_put_of_ne (st : Store) {id j : ScopeId} (h : id ≠ j) (name : String)
    (v : Option Value) : (st.put id name v).bindings j = st.bindings j := by
  unfold bindings put
  rw [getElem?_modify, if_neg h]

/-! ## Inspection -/

/-- The form of a scope that shows its names, for debugging. -/
def inspect (st : Store) (id : ScopeId) : String :=
  let names := (st.bindings id).sorted.map (·.1)
  "Environment \x7b names: " ++ Value.inspectNames names ++ ", has_parent: "
    ++ toString (st.parent? id).isSome ++ " \x7d"

end Store

end ScopeLang
