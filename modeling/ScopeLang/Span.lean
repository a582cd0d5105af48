-- SUMMARY: Places in a source text, counted in bytes, and how a run of bytes moves them.

/-! # Spans

A `Span` names a place in a source text by line and column. Lines and columns
count from one, columns count bytes, and a line feed is the last byte of its
line. `Span.after` says where a text that starts at a span stops, so the place
of every byte is `Span.start.after` of the bytes before it.
-/

namespace ScopeLang

/-- A place in a source text. -/
structure Span where
  line : Nat
  column : Nat
  deriving DecidableEq, Repr, Inhabited

namespace Span

/-- Where a source text begins. -/
def start : Span := ⟨1, 1⟩

/-- The place of a name that no source text introduces. -/
def nowhere : Span := ⟨0, 0⟩

/-- The byte that ends a line. -/
def lineFeed : UInt8 := 10

/-- The place right after one byte. -/
def step (s : Span) (b : UInt8) : Span :=
  if b = lineFeed then ⟨s.line + 1, 1⟩ else ⟨s.line, s.column + 1⟩

/-- The place right after a run of bytes. -/
def after (s : Span) (bs : List UInt8) : Span :=
  bs.foldl step s

/-- The next column of the same line. -/
def nextColumn (s : Span) : Span :=
  ⟨s.line, s.column + 1⟩

/-- A span is written `line:column`. -/
def render (s : Span) : String :=
  toString s.line ++ ":" ++ toString s.column

/-! ## Moving over bytes -/

@[simp] theorem after_nil (s : Span) : s.after [] = s := rfl

@[simp] theorem after_cons (s : Span) (b : UInt8) (bs : List UInt8) :
    s.after (b :: bs) = (s.step b).after bs := rfl

theorem after_append (s : Span) (bs cs : List UInt8) :
    s.after (bs ++ cs) = (s.after bs).after cs := by
  simp [after, List.foldl_append]

end Span

end ScopeLang
