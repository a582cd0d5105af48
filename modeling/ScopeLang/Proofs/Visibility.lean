-- SUMMARY: Resolution succeeds when every use of a name is visible, or blames the first other one.
import ScopeLang.Proofs.Resolution
import ScopeLang.Proofs.ShapeSafety

/-! # Visible names

Which names are visible at a place of a tree is a matter of what stands around and
before it, and can be said without a table of open regions. A path from the root
passes through nodes; a region among them makes visible what its earlier statements
introduce, and a function its own name and its parameters.

The main statement is that resolution decides this rule: it succeeds when every use
is visible, and otherwise blames the first use in preorder that is not. Paths are
compared as lists, and a path comes before its extensions, so that preorder is `<`.
-/

namespace ScopeLang

namespace Node

/-! ## Uses -/

/-- The path leads to a use of the name: to a call, or to a name that is not the child of a
definition or of a parameter list. -/
inductive UsesAt (root : Node) (path : List Nat) (name : String) (place : Span) : Prop
  | call {children : List Node} (h : root.at? path = some ⟨.call, name, place, children⟩)
  | name {children : List Node} (h : root.at? path = some ⟨.name, name, place, children⟩)
      (free : ∀ above i parent, path = above ++ [i] → root.at? above = some parent →
        parent.tag ≠ .definition ∧ parent.tag ≠ .parameters)

/-! ## Visibility -/

/-- The statement is the definition of a variable or a function of that name. -/
inductive Introduces (statement : Node) : String → Prop
  | definition {inside target : Node} (hinside : statement.children = [inside])
      (htag : inside.tag = .definition) (htarget : inside.children[0]? = some target) :
      Introduces statement target.text
  | function {inside : Node} (hinside : statement.children = [inside])
      (htag : inside.tag = .function) : Introduces statement inside.text

theorem introduces_iff {inside : Node} {place : Span} {name : String} :
    (Node.inner .statement place [inside]).Introduces name ↔
      (inside.tag = .definition ∧ ∃ target, inside.children[0]? = some target ∧
        name = target.text) ∨ inside.tag = .function ∧ name = inside.text := by
  constructor
  · intro h
    cases h with
    | definition hinside htag htarget =>
        cases hinside
        exact .inl ⟨htag, _, htarget, rfl⟩
    | function hinside htag =>
        cases hinside
        exact .inr ⟨htag, rfl⟩
  · rintro (⟨htag, target, htarget, rfl⟩ | ⟨htag, rfl⟩)
    · exact .definition rfl htag htarget
    · exact .function rfl htag

/-- The names that a node makes visible in its child at `i`. -/
inductive Opens (n : Node) (i : Nat) : String → Prop
  /-- A region makes visible what the statements before the child introduce. -/
  | earlier {j : Nat} {statement : Node} {name : String}
      (region : n.tag = .program ∨ n.tag = .block) (before : j < i)
      (hstatement : n.children[j]? = some statement) (introduces : statement.Introduces name) :
      Opens n i name
  | self (htag : n.tag = .function) : Opens n i n.text
  | parameter {list p : Node} (htag : n.tag = .function) (hlist : n.children[0]? = some list)
      (hp : p ∈ list.children) : Opens n i p.text

/-- The names that are visible around the child at `i`, if those of `outside` are visible around
the node. -/
def around (outside : String → Prop) (n : Node) (i : Nat) (name : String) : Prop :=
  outside name ∨ n.Opens i name

/-- The name is visible where the path leads: it is visible around the tree, or a node on the way
makes it visible. -/
def Visible (outside : String → Prop) (root : Node) (path : List Nat) (name : String) : Prop :=
  outside name ∨ ∃ above i below n, path = above ++ i :: below ∧ root.at? above = some n ∧
    n.Opens i name

section Paths

variable {n c : Node} {i : Nat} {path : List Nat} {name : String} {place : Span}
variable {outside : String → Prop}

theorem at?_cons (hc : n.children[i]? = some c) (path : List Nat) :
    n.at? (i :: path) = c.at? path := by
  rw [at?, hc]
  rfl

theorem visible_nil : n.Visible outside [] name ↔ outside name := by
  constructor
  · rintro (h | ⟨above, i, below, m, hpath, -⟩)
    · exact h
    · exact absurd hpath.symm (by simp)
  · exact .inl

/-- A name is visible below a child if it is visible around the child or on the way from there. -/
theorem visible_cons (hc : n.children[i]? = some c) :
    n.Visible outside (i :: path) name ↔ c.Visible (n.around outside i) path name := by
  constructor
  · rintro (h | ⟨above, j, below, m, hpath, hm, hopens⟩)
    · exact .inl (.inl h)
    · cases above with
      | nil =>
          obtain ⟨rfl, rfl⟩ := List.cons.inj hpath
          cases hm
          exact .inl (.inr hopens)
      | cons j' above =>
          obtain ⟨rfl, rfl⟩ := List.cons.inj hpath
          rw [at?_cons hc] at hm
          exact .inr ⟨above, j, below, m, rfl, hm, hopens⟩
  · rintro ((h | h) | ⟨above, j, below, m, rfl, hm, hopens⟩)
    · exact .inl h
    · exact .inr ⟨[], i, path, n, rfl, rfl, h⟩
    · exact .inr ⟨i :: above, j, below, m, rfl, (at?_cons hc above).trans hm, hopens⟩

theorem UsesAt.of_nil (h : n.UsesAt [] name place) :
    (n.tag = .call ∨ n.tag = .name) ∧ n.text = name ∧ n.span = place := by
  cases h with
  | call h =>
      cases h
      exact ⟨.inl rfl, rfl, rfl⟩
  | name h =>
      cases h
      exact ⟨.inr rfl, rfl, rfl⟩

theorem usesAt_nil (h : n.tag = .call ∨ n.tag = .name) : n.UsesAt [] n.text n.span := by
  obtain ⟨tag, text, span, children⟩ := n
  obtain rfl | rfl := h
  · exact .call rfl
  · refine .name rfl fun above i parent hpath _ => ?_
    exact absurd hpath.symm (by simp)

theorem UsesAt.exists_child (h : n.UsesAt (i :: path) name place) :
    ∃ c, n.children[i]? = some c := by
  cases h with
  | call h | name h =>
      obtain ⟨c, hc, -⟩ := Option.bind_eq_some_iff.1 h
      exact ⟨c, hc⟩

/-- A use below a child is a use in the child. -/
theorem usesAt_cons (hc : n.children[i]? = some c)
    (htag : n.tag ≠ .definition ∧ n.tag ≠ .parameters) :
    n.UsesAt (i :: path) name place ↔ c.UsesAt path name place := by
  constructor
  · intro h
    cases h with
    | call h =>
        rw [at?_cons hc] at h
        exact .call h
    | name h free =>
        rw [at?_cons hc] at h
        refine .name h fun above j parent hpath hparent => ?_
        exact free (i :: above) j parent (by rw [hpath]; rfl) ((at?_cons hc above).trans hparent)
  · intro h
    cases h with
    | call h => exact .call ((at?_cons hc path).trans h)
    | name h free =>
        refine .name ((at?_cons hc path).trans h) fun above j parent hpath hparent => ?_
        cases above with
        | nil =>
            cases hparent
            exact htag
        | cons j' above =>
            obtain ⟨rfl, rfl⟩ := List.cons.inj hpath
            rw [at?_cons hc] at hparent
            exact free above j parent rfl hparent

/-- There are no uses in a definition and in a parameter list. -/
theorem not_usesAt_of_declares (htag : n.tag = .definition ∨ n.tag = .parameters)
    (hleaves : ∀ c ∈ n.children, c.tag = .name ∧ c.children = []) :
    ¬ n.UsesAt path name place := by
  intro h
  cases path with
  | nil =>
      obtain ⟨huse, -, -⟩ := h.of_nil
      obtain htag | htag := htag <;> rw [htag] at huse <;> simp at huse
  | cons i path =>
      obtain ⟨c, hc⟩ := h.exists_child
      obtain ⟨hname, hchildren⟩ := hleaves c (List.mem_of_getElem? hc)
      cases path with
      | nil =>
          cases h with
          | call h =>
              rw [at?_cons hc] at h
              cases h
              cases hname
          | name _ free =>
              obtain ⟨hdefinition, hparameters⟩ := free [] i n rfl rfl
              exact htag.elim hdefinition hparameters
      | cons j path =>
          cases h with
          | call h | name h =>
              rw [at?_cons hc, at?, hchildren] at h
              cases h

end Paths

end Node

/-! ## Searches -/

/-- Every use on some paths is visible. -/
def AllVisible (outside : String → Prop) (n : Node) (paths : List Nat → Prop) : Prop :=
  ∀ path name place, paths path → n.UsesAt path name place → n.Visible outside path name

/-- The use is the first one on some paths that is not visible. -/
structure FirstHidden (outside : String → Prop) (n : Node) (paths : List Nat → Prop)
    (path : List Nat) (name : String) (place : Span) : Prop where
  onPath : paths path
  uses : n.UsesAt path name place
  hidden : ¬ n.Visible outside path name
  first : AllVisible outside n fun path' => paths path' ∧ path' < path

/-- The result is that of a search for a hidden use on some paths: if there is none it is a
success, and else it is the fault of the first one. -/
def Judges {α : Type} (outside : String → Prop) (n : Node) (paths : List Nat → Prop) :
    Except Fault α → Prop
  | .ok _ => AllVisible outside n paths
  | .error f => ∃ path name place, f = ⟨.undefinedName name, place⟩ ∧
      FirstHidden outside n paths path name place

/-- All paths. -/
def AnyPath (_path : List Nat) : Prop :=
  True

/-- The paths through the child at `i`. -/
def Through (i : Nat) (path : List Nat) : Prop :=
  path.head? = some i

/-- The paths through the child at `i` and those after it. -/
def From (i : Nat) (path : List Nat) : Prop :=
  ∃ j ∈ path.head?, i ≤ j

theorem from_iff {i : Nat} {path : List Nat} :
    From i path ↔ Through i path ∨ From (i + 1) path := by
  cases path with
  | nil => simp [From, Through]
  | cons j path =>
      simp only [From, Through, List.head?_cons, Option.mem_def, Option.some.injEq, exists_eq_left']
      omega

theorem lt_of_through_of_from {i : Nat} {path path' : List Nat} (h : Through i path)
    (h' : From (i + 1) path') : path < path' := by
  obtain ⟨path, rfl⟩ := List.head?_eq_some_iff.1 h
  obtain ⟨j, hj, hlt⟩ := h'
  obtain ⟨path', rfl⟩ := List.head?_eq_some_iff.1 hj
  exact List.cons_lt_cons_iff.2 (.inl hlt)

theorem not_usesAt_of_from {n : Node} {i : Nat} {path : List Nat} {name : String} {place : Span}
    (hi : n.children.length ≤ i) (h : From i path) : ¬ n.UsesAt path name place := by
  intro huses
  obtain ⟨j, hj, hle⟩ := h
  obtain ⟨path, rfl⟩ := List.head?_eq_some_iff.1 hj
  obtain ⟨c, hc⟩ := huses.exists_child
  have hlt := (List.getElem?_eq_some_iff.1 hc).1
  omega

namespace Judges

variable {α β : Type} {outside : String → Prop} {n c : Node} {paths paths' : List Nat → Prop}
variable {x : Except Fault α}

/-- Only the paths to uses matter. -/
theorem congr (h : Judges outside n paths x)
    (hpaths : ∀ path name place, n.UsesAt path name place → (paths path ↔ paths' path)) :
    Judges outside n paths' x := by
  cases x with
  | ok a =>
      intro path name place hpath huses
      exact h path name place ((hpaths path name place huses).2 hpath) huses
  | error f =>
      obtain ⟨path, name, place, hf, hpath, huses, hhidden, hfirst⟩ := h
      refine ⟨path, name, place, hf, (hpaths path name place huses).1 hpath, huses, hhidden, ?_⟩
      rintro path' name' place' ⟨hpath', hlt⟩ huses'
      exact hfirst path' name' place' ⟨(hpaths path' name' place' huses').2 hpath', hlt⟩ huses'

/-- A search on all paths to uses. -/
theorem everywhere (h : Judges outside n paths x)
    (hpaths : ∀ path name place, n.UsesAt path name place → paths path) :
    Judges outside n AnyPath x :=
  h.congr fun path name place huses => iff_of_true (hpaths path name place huses) trivial

theorem none {a : α} (h : ∀ path name place, paths path → ¬ n.UsesAt path name place) :
    Judges outside n paths (.ok a) := by
  intro path name place hpath huses
  exact absurd huses (h path name place hpath)

/-- A search on some paths, and then on paths after them. -/
theorem bind {f : α → Except Fault β} (hx : Judges outside n paths x)
    (hf : ∀ a, x = .ok a → Judges outside n paths' (f a))
    (order : ∀ path path', paths path → paths' path' → path < path') :
    Judges outside n (fun path => paths path ∨ paths' path) (x >>= f) := by
  cases x with
  | error e =>
      obtain ⟨path, name, place, he, hpath, huses, hhidden, hfirst⟩ := hx
      refine ⟨path, name, place, he, .inl hpath, huses, hhidden, ?_⟩
      rintro path' name' place' ⟨hpath' | hpath', hlt⟩ huses'
      · exact hfirst path' name' place' ⟨hpath', hlt⟩ huses'
      · exact absurd hlt (List.lt_asymm (order path path' hpath hpath'))
  | ok a =>
      have hfa := hf a rfl
      change Judges outside n _ (f a)
      generalize f a = y at hfa ⊢
      cases y with
      | ok b =>
          rintro path name place (hpath | hpath) huses
          · exact hx path name place hpath huses
          · exact hfa path name place hpath huses
      | error e =>
          obtain ⟨path, name, place, he, hpath, huses, hhidden, hfirst⟩ := hfa
          refine ⟨path, name, place, he, .inr hpath, huses, hhidden, ?_⟩
          rintro path' name' place' ⟨hpath' | hpath', hlt⟩ huses'
          · exact hx path' name' place' hpath' huses'
          · exact hfirst path' name' place' ⟨hpath', hlt⟩ huses'

theorem map (h : Judges outside n paths x) (g : α → β) :
    Judges outside n paths (x >>= fun a => .ok (g a)) := by
  cases x with
  | ok a => exact h
  | error e => exact h

/-- A search in a child is one on the paths through it. -/
theorem child {i : Nat} (hc : n.children[i]? = some c)
    (htag : n.tag ≠ .definition ∧ n.tag ≠ .parameters)
    (h : Judges (n.around outside i) c AnyPath x) : Judges outside n (Through i) x := by
  cases x with
  | ok a =>
      intro path name place hpath huses
      obtain ⟨path, rfl⟩ := List.head?_eq_some_iff.1 hpath
      rw [Node.visible_cons hc]
      exact h path name place trivial ((Node.usesAt_cons hc htag).1 huses)
  | error f =>
      obtain ⟨path, name, place, hf, -, huses, hhidden, hfirst⟩ := h
      refine ⟨i :: path, name, place, hf, rfl, (Node.usesAt_cons hc htag).2 huses, ?_, ?_⟩
      · rwa [Node.visible_cons hc]
      · rintro path' name' place' ⟨hpath', hlt⟩ huses'
        obtain ⟨path', rfl⟩ := List.head?_eq_some_iff.1 hpath'
        rw [Node.visible_cons hc]
        rw [List.cons_lt_cons_self] at hlt
        exact hfirst path' name' place' ⟨trivial, hlt⟩ ((Node.usesAt_cons hc htag).1 huses')

/-- A search through a child, and then through those after it. -/
theorem followed {i : Nat} {f : α → Except Fault β} (hx : Judges outside n (Through i) x)
    (hf : ∀ a, x = .ok a → Judges outside n (From (i + 1)) (f a)) :
    Judges outside n (From i) (x >>= f) := by
  refine (hx.bind hf fun path path' => lt_of_through_of_from).congr fun path name place _ => ?_
  exact from_iff.symm

/-- A search through the last child. -/
theorem last {i : Nat} (hx : Judges outside n (Through i) x) (hi : n.children.length ≤ i + 1) :
    Judges outside n (From i) x := by
  refine hx.congr fun path name place huses => ?_
  rw [from_iff, or_iff_left]
  exact fun hfrom => not_usesAt_of_from hi hfrom huses

/-- After the last child, there is nothing to search. -/
theorem ended {i : Nat} {a : α} (hi : n.children.length ≤ i) :
    Judges outside n (From i) (.ok a) :=
  none fun _ _ _ hfrom => not_usesAt_of_from hi hfrom

/-- A search through all children of a node that is not itself a use. -/
theorem whole (hx : Judges outside n (From 0) x) (htag : n.tag ≠ .call ∧ n.tag ≠ .name) :
    Judges outside n AnyPath x := by
  refine hx.everywhere fun path name place huses => ?_
  cases path with
  | nil =>
      obtain hcall | hname := huses.of_nil.1
      · exact absurd hcall htag.1
      · exact absurd hname htag.2
  | cons i path => exact ⟨i, rfl, Nat.zero_le i⟩

end Judges

/-! ## What a table shows -/

namespace SymbolTable

/-- The table sees the visible names, and no others. -/
def Shows (t : SymbolTable) (visible : String → Prop) : Prop :=
  ∀ name, t.sees name = true ↔ visible name

section Shows

variable {v : Vocabulary} {t t' : SymbolTable} {outside : String → Prop} {n : Node}

theorem judges_resolve (ht : t.Shows outside) (htag : n.tag = .call ∨ n.tag = .name) :
    Judges outside n (· = []) (t.resolve n.text n.span) := by
  have hsees := ht n.text
  rw [sees] at hsees
  rw [resolve]
  cases hlookup : t.lookup n.text with
  | some symbol =>
      rintro path name place rfl huses
      rw [← huses.of_nil.2.1, Node.visible_nil, ← hsees, hlookup]
      rfl
  | none =>
      refine ⟨[], n.text, n.span, rfl, rfl, Node.usesAt_nil htag, ?_, ?_⟩
      · rw [Node.visible_nil, ← hsees, hlookup]
        exact Bool.false_ne_true
      · rintro path' name' place' ⟨rfl, hlt⟩ -
        exact absurd hlt (List.lt_irrefl [])

/-- A search through children one after another, with tables that show what is visible around
each of them. -/
theorem judges_walkAll (htag : n.tag ≠ .definition ∧ n.tag ≠ .parameters)
    (step : ∀ (i : Nat) (c : Node) (t : SymbolTable), n.children[i]? = some c →
      t.Shows (n.around outside i) →
      Judges (n.around outside i) c AnyPath (t.walk c) ∧
        ∀ t', t.walk c = .ok t' → t'.Shows (n.around outside (i + 1)))
    {i : Nat} {ns : List Node} (hns : n.children.drop i = ns) (ht : t.Shows (n.around outside i)) :
    Judges outside n (From i) (t.walkAll ns) := by
  induction ns generalizing i t with
  | nil => exact .ended (List.drop_eq_nil_iff.1 hns)
  | cons c ns ih =>
      have hc : n.children[i]? = some c := by
        rw [← List.head?_drop, hns]
        rfl
      have hrest : n.children.drop (i + 1) = ns := by
        rw [← List.tail_drop, hns]
        rfl
      obtain ⟨hjudges, hshows⟩ := step i c t hc ht
      rw [walkAll]
      exact (hjudges.child hc htag).followed fun t' ht' => ih hrest (hshows t' ht')

end Shows

/-! ## Statement by statement -/

section Statements

variable {v : Vocabulary} {t t' : SymbolTable} {name : String}

theorem tag_of_expression {e : Node} (h : WellFormed v .expression e) :
    e.tag ≠ .definition ∧ e.tag ≠ .function := by
  cases h <;> simp [Node.leaf, Node.inner]

/-- After a statement, what it introduces is visible, and what was visible before it. -/
theorem sees_of_walk_statement {statement : Node} (hn : WellFormed v .statement statement)
    (h : t.walk statement = .ok t') :
    t'.sees name = true ↔ t.sees name = true ∨ statement.Introduces name := by
  cases hn with
  | @statement place inside hinside =>
      have hwalk := walk_statement h
      rw [Node.introduces_iff]
      cases hinside with
      | evaluation he =>
          obtain ⟨hdefinition, hfunction⟩ := tag_of_expression he
          have hsame : t' = t := leaves_of_walk he hwalk
          simp [hsame, hdefinition, hfunction]
      | definition =>
          rw [walk_definition hwalk, sees_declare, or_comm]
          simp [Node.inner, Node.leaf]
      | conditional htest hbody =>
          obtain ⟨t₁, t₂, hwalkTest, hwalkBody, rfl⟩ := walk_conditional hwalk
          have hsame : t₁ = t := leaves_of_walk htest hwalkTest
          simp [pop_of_walk_block hbody hwalkBody, hsame, Node.inner]
      | conditionalElse htest hbody hotherwise =>
          obtain ⟨t₁, t₂, hwalkTest, hwalkBody, hwalkOtherwise⟩ := walk_conditionalElse hwalk
          have hsame : t₁ = t := leaves_of_walk htest hwalkTest
          have hsame' : t' = t₂.pop := leaves_of_walk hotherwise hwalkOtherwise
          simp [hsame', pop_of_walk_block hbody hwalkBody, hsame, Node.inner]
      | loop htest hbody =>
          obtain ⟨t₁, t₂, hwalkTest, hwalkBody, rfl⟩ := walk_loop hwalk
          have hsame : t₁ = t := leaves_of_walk htest hwalkTest
          simp [pop_of_walk_block hbody hwalkBody, hsame, Node.inner]
      | function _ _ hbody =>
          obtain ⟨t₁, hwalkBody, rfl⟩ := walk_function hwalk
          have hleaves : SameOutside _ t₁ := leaves_of_walk hbody hwalkBody
          rw [((SameOutside.declareParameters _ _).trans hleaves).pop_eq, sees_declare, or_comm]
          simp

end Statements

end SymbolTable

/-! ## Transparent nodes -/

/-- Around the children of such a node the same names are visible as around the node. -/
def Tag.isTransparent : Tag → Bool
  | .definition | .parameters | .program | .block | .function => false
  | _ => true

section Transparent

variable {α : Type} {outside : String → Prop} {n c : Node} {i : Nat} {x : Except Fault α}

theorem around_of_isTransparent (h : n.tag.isTransparent = true) (i : Nat) :
    n.around outside i = outside := by
  funext name
  refine propext (or_iff_left ?_)
  intro hopens
  cases hopens with
  | earlier region => obtain htag | htag := region <;> rw [htag] at h <;> cases h
  | self htag | parameter htag =>
      rw [htag] at h
      cases h

theorem tag_of_isTransparent (h : n.tag.isTransparent = true) :
    n.tag ≠ .definition ∧ n.tag ≠ .parameters := by
  constructor <;> intro htag <;> rw [htag] at h <;> cases h

theorem Judges.within (htag : n.tag.isTransparent = true) (hc : n.children[i]? = some c)
    (h : Judges outside c AnyPath x) : Judges outside n (Through i) x := by
  apply child hc (tag_of_isTransparent htag)
  rwa [around_of_isTransparent htag]

end Transparent

/-! ## Node by node -/

namespace SymbolTable

-- Derives the equations of the four functions here, once, for all the lemmas below.
attribute [local simp] walk walkAll walkAt walkRest

section Nodes

variable {v : Vocabulary} {t t' : SymbolTable} {outside : String → Prop} {n c : Node}

theorem walkAll_singleton (t : SymbolTable) (n : Node) : t.walkAll [n] = t.walk n := by
  rw [walkAll]
  cases t.walk n <;> rfl

/-- Walking the node is a search for a hidden use, whatever is visible around it. -/
def Decides (n : Node) : Prop :=
  ∀ ⦃t : SymbolTable⦄ ⦃outside : String → Prop⦄, t.Shows outside →
    Judges outside n AnyPath (t.walk n)

theorem Shows.push (ht : t.Shows outside) (kind : RegionKind) : (t.push kind).Shows outside :=
  ht

/-- A search through expressions, which change nothing. -/
theorem judges_expressions (htag : n.tag.isTransparent = true)
    (hn : ∀ c ∈ n.children, WellFormed v .expression c) (ih : ∀ c ∈ n.children, Decides c)
    (ht : t.Shows outside) :
    Judges outside n (From 0) (t.walkAll n.children) := by
  apply judges_walkAll (tag_of_isTransparent htag) ?_ (List.drop_zero)
  · rwa [around_of_isTransparent htag]
  · intro i c t hc hshows
    rw [around_of_isTransparent htag] at hshows ⊢
    have hmem := List.mem_of_getElem? hc
    refine ⟨ih c hmem hshows, fun t' hwalk => ?_⟩
    have hsame : t' = t := leaves_of_walk (hn c hmem) hwalk
    rwa [hsame, around_of_isTransparent htag]

theorem around_zero {name : String} (htag : n.tag = .program ∨ n.tag = .block) :
    n.around outside 0 name ↔ outside name := by
  refine or_iff_left ?_
  intro hopens
  cases hopens with
  | earlier _ before => exact absurd before (Nat.not_lt_zero _)
  | self hfunction | parameter hfunction => simp [hfunction] at htag

/-- In a region, what a statement introduces is visible after it. -/
theorem around_succ {i : Nat} {name : String} (htag : n.tag = .program ∨ n.tag = .block)
    (hc : n.children[i]? = some c) :
    n.around outside (i + 1) name ↔ n.around outside i name ∨ c.Introduces name := by
  constructor
  · rintro (h | h)
    · exact .inl (.inl h)
    · cases h with
      | @earlier j statement _ region before hstatement introduces =>
          obtain hj | rfl := Nat.lt_succ_iff_lt_or_eq.1 before
          · exact .inl (.inr (.earlier region hj hstatement introduces))
          · rw [hc] at hstatement
            cases hstatement
            exact .inr introduces
      | self hfunction | parameter hfunction => simp [hfunction] at htag
  · rintro ((h | h) | h)
    · exact .inl h
    · cases h with
      | earlier region before hstatement introduces =>
          exact .inr (.earlier region (Nat.lt_succ_of_lt before) hstatement introduces)
      | self hfunction | parameter hfunction => simp [hfunction] at htag
    · exact .inr (.earlier htag (Nat.lt_succ_self i) hc h)

/-- A search through the statements of a region. -/
theorem judges_region (htag : n.tag = .program ∨ n.tag = .block)
    (hn : ∀ c ∈ n.children, WellFormed v .statement c) (ih : ∀ c ∈ n.children, Decides c)
    (ht : t.Shows outside) :
    Judges outside n (From 0) (t.walkAll n.children) := by
  have hother : n.tag ≠ .definition ∧ n.tag ≠ .parameters := by
    obtain htag | htag := htag <;> simp [htag]
  apply judges_walkAll hother ?_ (List.drop_zero)
  · intro name
    rw [around_zero htag]
    exact ht name
  · intro i c t hc hshows
    have hmem := List.mem_of_getElem? hc
    refine ⟨ih c hmem hshows, fun t' hwalk name => ?_⟩
    rw [sees_of_walk_statement (hn c hmem) hwalk, around_succ htag hc, hshows name]

/-- In the body of a function, its name and its parameters are visible. -/
theorem Shows.function {spelling : String} {place opening : Span} {parameters : List Node}
    {body : Node} (ht : t.Shows outside) :
    (((t.declare ⟨spelling, .function, place, 0⟩).push .function).declareParameters
      parameters).Shows (Node.around outside
        ⟨.function, spelling, place, [.inner .parameters opening parameters, body]⟩ 1) := by
  intro name
  rw [sees_declareParameters, sees_push, sees_declare, ht name]
  constructor
  · rintro (h | rfl | h)
    · obtain ⟨p, hp, rfl⟩ := List.mem_map.1 h
      exact .inr (.parameter rfl rfl hp)
    · exact .inr (.self rfl)
    · exact .inl h
  · rintro (h | h)
    · exact .inr (.inr h)
    · cases h with
      | earlier region => obtain htag | htag := region <;> cases htag
      | self => exact .inr (.inl rfl)
      | parameter _ hlist hp =>
          cases hlist
          exact .inl (List.mem_map.2 ⟨_, hp, rfl⟩)

theorem decides_name (spelling : String) (place : Span) :
    Decides (.leaf .name spelling place) := by
  intro t outside ht
  simp only [Node.leaf, walk]
  refine ((judges_resolve ht (.inr rfl)).everywhere fun path name place' huses => ?_).map fun _ => t
  cases path with
  | nil => rfl
  | cons i path =>
      obtain ⟨c, hc⟩ := huses.exists_child
      cases hc

/-- The callee is looked at before the arguments. -/
theorem decides_call {callee : String} {place opening : Span} {arguments : List Node}
    (hn : ∀ a ∈ arguments, WellFormed v .expression a) (ih : ∀ a ∈ arguments, Decides a) :
    Decides ⟨.call, callee, place, [.inner .arguments opening arguments]⟩ := by
  intro t outside ht
  simp only [walk, walkAll_singleton, Node.inner]
  have hinside : Judges outside (.inner .arguments opening arguments) AnyPath
      (t.walkAll arguments) :=
    (judges_expressions rfl hn ih ht).whole (by simp [Node.inner])
  have harguments : Judges outside ⟨.call, callee, place, [.inner .arguments opening arguments]⟩
      (From 0) (t.walkAll arguments) := (Judges.within rfl rfl hinside).last (Nat.le_refl 1)
  refine ((judges_resolve ht (.inl rfl)).bind (fun _ _ => harguments) ?_).everywhere ?_
  · rintro path path' rfl ⟨j, hj, -⟩
    obtain ⟨path', rfl⟩ := List.head?_eq_some_iff.1 hj
    exact List.nil_lt_cons j path'
  · intro path name place huses
    cases path with
    | nil => exact .inl rfl
    | cons i path => exact .inr ⟨i, rfl, Nat.zero_le i⟩

/-- Nothing but the body of a function is looked at. -/
theorem decides_function {spelling : String} {place opening : Span} {parameters : List Node}
    {body : Node} (hparameters : ∀ p ∈ parameters, WellFormed v .parameter p)
    (ih : Decides body) :
    Decides ⟨.function, spelling, place, [.inner .parameters opening parameters, body]⟩ := by
  intro t outside ht
  simp only [walk, walkAt, Node.inner]
  refine Judges.whole ?_ (by simp)
  have hbody : Judges outside
      ⟨.function, spelling, place, [.inner .parameters opening parameters, body]⟩ (Through 1) _ :=
    Judges.child rfl (by simp) (ih ht.function)
  refine ((hbody.last (Nat.le_refl 2)).map pop).congr fun path name place' huses => ?_
  rw [from_iff (i := 0), or_iff_right]
  intro hthrough
  obtain ⟨path, rfl⟩ := List.head?_eq_some_iff.1 hthrough
  have hinside : (Node.inner .parameters opening parameters).UsesAt path name place' :=
    (Node.usesAt_cons rfl (by simp)).1 huses
  refine Node.not_usesAt_of_declares (.inr rfl) (fun p hp => ?_) hinside
  cases hparameters p hp
  exact ⟨rfl, rfl⟩

/-- A search through a condition and the block that it guards. -/
theorem judges_guarded (htag : n.tag.isTransparent = true) {test body : Node}
    (htest : n.children[0]? = some test) (hbody : n.children[1]? = some body)
    (hn : WellFormed v .expression test) (ihtest : Decides test) (ihbody : Decides body)
    {f : SymbolTable → Except Fault SymbolTable}
    (hf : ∀ t', (t.push .block).walk body = .ok t' → Judges outside n (From 2) (f t'))
    (ht : t.Shows outside) :
    Judges outside n (From 0) (do
      let t ← t.walk test
      let t ← (t.push .block).walk body
      f t) := by
  refine (Judges.within htag htest (ihtest ht)).followed fun t₁ hwalk => ?_
  obtain rfl : t₁ = t := leaves_of_walk hn hwalk
  exact (Judges.within htag hbody (ihbody (ht.push .block))).followed hf

/-- Walking a tree of the grammar is a search for a hidden use. -/
theorem decides_of_wellFormed {role : Role} (hn : WellFormed v role n) : Decides n := by
  induction hn with
  | number | text =>
      intro t outside ht
      simp only [Node.leaf, walk]
      exact (Judges.ended (Nat.le_refl 0)).whole (by simp)
  | name | parameter => exact decides_name _ _
  | binary hleft hright ihleft ihright =>
      intro t outside ht
      simp only [Node.inner, walk]
      have hchildren := List.forall_mem_cons.2 ⟨hleft, List.forall_mem_singleton.2 hright⟩
      have ih := List.forall_mem_cons.2 ⟨ihleft, List.forall_mem_singleton.2 ihright⟩
      exact (judges_expressions rfl hchildren ih ht).whole (by simp)
  | @assignment target place _ _ admitted hvalue ihvalue =>
      intro t outside ht
      simp only [Node.inner, walk]
      have htarget : WellFormed v .expression (.leaf .name target place) := .name admitted
      have ihtarget := decides_name target place
      have hchildren := List.forall_mem_cons.2 ⟨htarget, List.forall_mem_singleton.2 hvalue⟩
      have ih := List.forall_mem_cons.2 ⟨ihtarget, List.forall_mem_singleton.2 ihvalue⟩
      exact (judges_expressions rfl hchildren ih ht).whole (by simp)
  | call _ harguments ih => exact decides_call harguments ih
  | evaluation _ ih => exact ih
  | definition =>
      intro t outside ht
      simp only [Node.inner, walk]
      refine Judges.none fun path name place _ => ?_
      exact Node.not_usesAt_of_declares (.inl rfl) (List.forall_mem_singleton.2 ⟨rfl, rfl⟩)
  | conditional htest hbody ihtest ihbody | loop htest hbody ihtest ihbody =>
      intro t outside ht
      simp only [Node.inner, walk, walkAt, walkRest]
      refine (judges_guarded rfl rfl rfl htest ihtest ihbody ?_ ht).whole (by simp)
      exact fun t' _ => Judges.ended (Nat.le_refl 2)
  | conditionalElse htest hbody hotherwise ihtest ihbody ihotherwise =>
      intro t outside ht
      simp only [Node.inner, walk, walkAt, walkRest]
      refine (judges_guarded rfl rfl rfl htest ihtest ihbody ?_ ht).whole (by simp)
      intro t' hwalk
      rw [pop_of_walk_block hbody hwalk]
      exact (Judges.within rfl rfl (ihotherwise ht)).last (Nat.le_refl 3)
  | alternative _ ihbody =>
      intro t outside ht
      simp only [Node.inner, walk, walkAt]
      refine Judges.whole ?_ (by simp)
      exact ((Judges.within rfl rfl (ihbody (ht.push .block))).last (Nat.le_refl 1)).map pop
  | function _ hparameters _ _ ihbody => exact decides_function hparameters ihbody
  | statement _ ih =>
      intro t outside ht
      simp only [Node.inner, walk, walkAll_singleton]
      exact ((Judges.within rfl rfl (ih ht)).last (Nat.le_refl 1)).whole (by simp)
  | block _ hstatements ih =>
      intro t outside ht
      simp only [Node.inner, walk]
      exact (judges_region (.inr rfl) hstatements ih ht).whole (by simp)
  | program _ hstatements ih =>
      intro t outside ht
      simp only [Node.inner, walk]
      exact (judges_region (.inl rfl) hstatements ih ht).whole (by simp)

end Nodes

end SymbolTable

/-! ## Whole programs -/

/-- The names that are visible around a program. -/
def Intrinsic.IsName (name : String) : Prop :=
  ∃ i : Intrinsic, i.name = name

namespace SymbolTable

theorem shows_initial : initial.Shows Intrinsic.IsName := by
  intro name
  rw [sees_initial]
  constructor
  · intro h
    obtain ⟨i, -, hi⟩ := List.mem_map.1 h
    exact ⟨i, hi⟩
  · rintro ⟨i, rfl⟩
    apply List.mem_map_of_mem
    cases i <;> decide

theorem depth_of_walk_program {v : Vocabulary} {root : Node} {t : SymbolTable}
    (hroot : WellFormed v .program root) (h : initial.walk root = .ok t) : t.depth = 0 := by
  have hleaves : SameOutside initial t := leaves_of_walk hroot h
  have hinner : t.inner = [] := hleaves
  rw [depth, hinner]
  rfl

end SymbolTable

/-- Resolution of the tree of a program succeeds when every use of a name is visible, and then
all regions but the global one are closed. Otherwise it blames the first hidden use. -/
theorem analyze_decides_visibility {tokens : List Token} {root : Node}
    (h : parseTokens tokens = .ok root) :
    ((∃ t, analyze root = .ok t) ↔ AllVisible Intrinsic.IsName root AnyPath) ∧
    (∀ t, analyze root = .ok t → t.depth = 0) ∧
    (∀ f, analyze root = .error f → ∃ path name place, f = ⟨.undefinedName name, place⟩ ∧
      FirstHidden Intrinsic.IsName root AnyPath path name place) := by
  obtain ⟨d, rfl⟩ := exists_derivation_of_parseTokens h
  have hroot : WellFormed .unrestricted .program d.tree :=
    d.wellFormed_tree fun x _ => Vocabulary.admits_unrestricted x.lexeme
  have hjudges : Judges Intrinsic.IsName d.tree AnyPath (analyze d.tree) :=
    SymbolTable.decides_of_wellFormed hroot SymbolTable.shows_initial
  refine ⟨⟨?_, ?_⟩, fun t => SymbolTable.depth_of_walk_program hroot, ?_⟩
  · rintro ⟨t, hanalyze⟩
    rw [hanalyze] at hjudges
    exact hjudges
  · intro hvisible
    cases hanalyze : analyze d.tree with
    | ok t => exact ⟨t, rfl⟩
    | error f =>
        rw [hanalyze] at hjudges
        obtain ⟨path, name, place, -, hfirst⟩ := hjudges
        exact absurd (hvisible path name place trivial hfirst.uses) hfirst.hidden
  · intro f hanalyze
    rw [hanalyze] at hjudges
    exact hjudges

/-- A function calls itself with its parameter, which is hidden after it. -/
theorem analyze_decides_visibility_parameter :
    let tokens : List Token := [⟨.keyword .function, ⟨1, 1⟩⟩, ⟨.name "f", ⟨1, 10⟩⟩,
      ⟨.mark .openParen, ⟨1, 11⟩⟩, ⟨.name "n", ⟨1, 12⟩⟩, ⟨.mark .closeParen, ⟨1, 13⟩⟩,
      ⟨.mark .openBrace, ⟨1, 15⟩⟩, ⟨.name "f", ⟨1, 17⟩⟩, ⟨.mark .openParen, ⟨1, 18⟩⟩,
      ⟨.name "n", ⟨1, 19⟩⟩, ⟨.mark .closeParen, ⟨1, 20⟩⟩, ⟨.mark .semicolon, ⟨1, 21⟩⟩,
      ⟨.mark .closeBrace, ⟨1, 23⟩⟩, ⟨.name "n", ⟨1, 25⟩⟩, ⟨.mark .semicolon, ⟨1, 26⟩⟩,
      ⟨.endOfInput, ⟨1, 27⟩⟩]
    ∃ root, parseTokens tokens = .ok root ∧ ¬ AllVisible Intrinsic.IsName root AnyPath ∧
      ∃ path, FirstHidden Intrinsic.IsName root AnyPath path "n" ⟨1, 25⟩ := by
  intro tokens
  obtain ⟨root, hparse, hanalyze⟩ : ∃ root, parseTokens tokens = .ok root ∧
      analyze root = .error ⟨.undefinedName "n", ⟨1, 25⟩⟩ := ⟨_, rfl, rfl⟩
  obtain ⟨-, -, hfault⟩ := analyze_decides_visibility hparse
  obtain ⟨path, name, place, heq, hfirst⟩ := hfault _ hanalyze
  cases heq
  refine ⟨root, hparse, fun hvisible => ?_, path, hfirst⟩
  exact hfirst.hidden (hvisible path "n" _ trivial hfirst.uses)

end ScopeLang
