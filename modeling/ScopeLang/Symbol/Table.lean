-- SUMMARY: Symbols, the regions of a program, and the table of open regions.
import ScopeLang.NameMap
import ScopeLang.Span

/-! # Symbol tables

A symbol table is the stack of regions that are open at some point of a
program. The global region lies at the bottom and cannot be closed. A name is
looked up from the innermost region outwards. Declaring a name again in one
region replaces the older declaration; declarations of the global region are
numbered, and the number of a name is that of its latest one.
-/

namespace ScopeLang

/-- How a name came to be declared. -/
inductive SymbolKind
  | var
  | function
  | parameter
  | intrinsic
  deriving DecidableEq, Repr

def SymbolKind.label : SymbolKind → String
  | .var => "variable"
  | .function => "function"
  | .parameter => "parameter"
  | .intrinsic => "intrinsic"

/-- A declaration of a name. -/
structure Symbol where
  name : String
  kind : SymbolKind
  span : Span
  /-- How many global declarations came before; zero outside the global region. -/
  order : Nat := 0
  deriving DecidableEq, Repr

/-- What a region is the inside of. -/
inductive RegionKind
  | program
  | function
  | block
  deriving DecidableEq, Repr

/-- A region of a program and the names declared in it so far. -/
structure Region where
  kind : RegionKind
  symbols : NameMap Symbol := .empty
  deriving Repr

namespace Region

/-- Whether a name has been declared in the region. -/
def declares (r : Region) (name : String) : Bool :=
  r.symbols.contains name

/-- The latest declaration of a name. -/
def get? (r : Region) (name : String) : Option Symbol :=
  r.symbols.get? name

/-- Add a declaration, in place of an older one of the same name. -/
def declare (r : Region) (s : Symbol) : Region :=
  { r with symbols := r.symbols.insert s.name s }

def size (r : Region) : Nat :=
  r.symbols.size

end Region

/-- The regions open at some point of a program. -/
structure SymbolTable where
  /-- The regions inside the global one, innermost first. -/
  inner : List Region := []
  global : Region := ⟨.program, .empty⟩
  /-- How many declarations the global region has seen. -/
  counter : Nat := 0
  deriving Repr

namespace SymbolTable

/-- How many regions are open inside the global one. -/
def depth (t : SymbolTable) : Nat :=
  t.inner.length

/-- The open regions, innermost first. -/
def regions (t : SymbolTable) : List Region :=
  t.inner ++ [t.global]

/-- The innermost region. -/
def current (t : SymbolTable) : Region :=
  t.inner.headD t.global

/-- Open a region. -/
def push (t : SymbolTable) (kind : RegionKind) : SymbolTable :=
  { t with inner := ⟨kind, .empty⟩ :: t.inner }

/-- Close the innermost region, unless it is the global one. -/
def pop (t : SymbolTable) : SymbolTable :=
  { t with inner := t.inner.tail }

/-- Declare a name in the innermost region. -/
def declare (t : SymbolTable) (s : Symbol) : SymbolTable :=
  match t.inner with
  | [] =>
    { t with
      global := t.global.declare { s with order := t.counter }
      counter := t.counter + 1 }
  | region :: outer => { t with inner := region.declare s :: outer }

/-- Declare a name in the innermost region, and tell whether that replaces an
older declaration of the region. -/
def introduce (t : SymbolTable) (s : Symbol) : Bool × SymbolTable :=
  (t.current.declares s.name, t.declare s)

/-- The declaration that a name refers to: the latest one of the innermost
region that declares it. -/
def lookup (t : SymbolTable) (name : String) : Option Symbol :=
  t.regions.findSome? (·.get? name)

/-- The symbols of the global region in the order of their declaration. -/
def globals (t : SymbolTable) : List Symbol :=
  t.global.symbols.inOrder.map (·.2)

/-! ## Opening and closing -/

@[simp] theorem pop_push (t : SymbolTable) (kind : RegionKind) : (t.push kind).pop = t := rfl

@[simp] theorem depth_push (t : SymbolTable) (kind : RegionKind) :
    (t.push kind).depth = t.depth + 1 := rfl

@[simp] theorem depth_pop (t : SymbolTable) : t.pop.depth = t.depth - 1 := by
  simp [depth, pop]

@[simp] theorem depth_declare (t : SymbolTable) (s : Symbol) : (t.declare s).depth = t.depth := by
  unfold declare
  split <;> rename_i h <;> simp [depth, h]

end SymbolTable

end ScopeLang
