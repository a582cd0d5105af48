-- SUMMARY: The indented dump of a syntax tree, one line per node.
import ScopeLang.Tree.Basic

/-! # Tree dumps

A dump shows a tree with one line per node, a parent before its children:

```text
UNIT
+--STATEMENT
|  +--INT_LITERAL[1]
+--STATEMENT
   +--ADD
      +--INT_LITERAL[2]
      +--VARREF[x]
```

The lead of a line has three characters for each level above its node: a bar
where the ancestor of that level has a later sibling, blanks where it has none.
-/

namespace ScopeLang.Node

/-- What the lead of the lines below a child is extended by. -/
def rail (isLast : Bool) : String :=
  if isLast then "   " else "|  "

mutual

/-- The lines of the nodes below a node, each after the given lead. -/
def linesBelow (lead : String) : Node → List String
  | ⟨_, _, _, children⟩ => branchLines lead children

/-- The lines of some siblings and of the nodes below them. -/
def branchLines (lead : String) : List Node → List String
  | [] => []
  | child :: rest =>
    (lead ++ "+--" ++ child.label) :: linesBelow (lead ++ rail rest.isEmpty) child
      ++ branchLines lead rest

end

/-- The lines of a dump. -/
def dumpLines (n : Node) : List String :=
  n.label :: linesBelow "" n

/-- The dump of a tree: every line ends in a line feed. -/
def dump (n : Node) : String :=
  String.join (n.dumpLines.map (· ++ "\n"))

end ScopeLang.Node
