-- SUMMARY: The texts of a tree and the names found in it do not depend on places.
import ScopeLang.Proofs.Rendering
import ScopeLang.Symbol.Resolve
import ScopeLang.Tree.Dump

/-! # Trees up to their places

A tree and the same tree at other places have the same dump and the same source
text, and name resolution finds the same declarations in both. Where there is
no source text, or a name without a declaration, the faults have the same cause.

Each function on trees is compared on a tree and on the tree without its places.
A fault for a missing child is the only thing a function is given that has a
place, so the statements let that place vary.
-/

namespace ScopeLang

/-! ## Faults without their places -/

/-- A result, where a fault counts for its cause. -/
def unlocated {α : Type} (x : Except Fault α) : Except Cause α :=
  x.mapError Fault.cause

theorem unlocated_bind {α β : Type} (x : Except Fault α) (f : α → Except Fault β) :
    unlocated (x >>= f) = unlocated x >>= fun a => unlocated (f a) := by
  cases x <;> rfl

namespace Node

@[simp] theorem tag_unplaced (n : Node) : n.unplaced.tag = n.tag := by
  cases n
  rfl

@[simp] theorem text_unplaced (n : Node) : n.unplaced.text = n.text := by
  cases n
  rfl

@[simp] theorem children_unplaced (n : Node) : n.unplaced.children = n.children.map unplaced := by
  cases n
  exact unplacedAll_eq_map _

/-! ## Dumps -/

@[simp] theorem label_unplaced (n : Node) : n.unplaced.label = n.label := by
  unfold label
  rw [text_unplaced, tag_unplaced]

mutual

theorem linesBelow_unplaced (lead : String) : ∀ n : Node,
    n.unplaced.linesBelow lead = n.linesBelow lead
  | ⟨_, _, _, children⟩ => by
    simp only [unplaced, linesBelow]
    exact branchLines_unplaced lead children

theorem branchLines_unplaced (lead : String) : ∀ ns : List Node,
    branchLines lead (unplacedAll ns) = branchLines lead ns
  | [] => by simp only [unplacedAll]
  | n :: ns => by
    have hlast : (unplacedAll ns).isEmpty = ns.isEmpty := by
      cases ns <;> rfl
    simp only [unplacedAll, branchLines, label_unplaced, hlast, linesBelow_unplaced _ n,
      branchLines_unplaced lead ns]

end

theorem dump_unplaced (n : Node) : n.unplaced.dump = n.dump := by
  simp only [dump, dumpLines, label_unplaced, linesBelow_unplaced]

/-! ## Source texts -/

mutual

theorem expressionSource_unplaced : ∀ n : Node,
    unlocated n.unplaced.expressionSource = unlocated n.expressionSource
  | ⟨tag, text, span, children⟩ => by
    cases tag with
    | binary op =>
        simp only [unplaced, expressionSource, unlocated_bind,
          expressionSourceAt_unplaced (.missingChild (.binary op) 0) span 0 children,
          expressionSourceAt_unplaced (.missingChild (.binary op) 1) span 1 children]
    | assignment =>
        simp only [unplaced, expressionSource, unlocated_bind,
          assignmentSource_unplaced (.missingChild .assignment) span children]
    | call =>
        simp only [unplaced, expressionSource, unlocated_bind,
          argumentSources_unplaced (.missingChild .call 0) span children]
    | _ => simp only [unplaced, expressionSource]

theorem expressionSourceAt_unplaced (cause : Cause) (place : Span) :
    ∀ (i : Nat) (ns : List Node),
    unlocated (expressionSourceAt ⟨cause, .nowhere⟩ i (unplacedAll ns)) =
      unlocated (expressionSourceAt ⟨cause, place⟩ i ns)
  | _, [] => by
    simp only [unplacedAll, expressionSourceAt]
    rfl
  | 0, n :: ns => by
    simp only [unplacedAll, expressionSourceAt]
    exact expressionSource_unplaced n
  | i + 1, n :: ns => by
    simp only [unplacedAll, expressionSourceAt]
    exact expressionSourceAt_unplaced cause place i ns

theorem assignmentSource_unplaced (cause : Nat → Cause) (place : Span) : ∀ ns : List Node,
    unlocated (assignmentSource (fun i => ⟨cause i, .nowhere⟩) (unplacedAll ns)) =
      unlocated (assignmentSource (fun i => ⟨cause i, place⟩) ns)
  | [] => by
    simp only [unplacedAll, assignmentSource]
    rfl
  | n :: ns => by
    simp only [unplacedAll, assignmentSource, unlocated_bind, text_unplaced,
      expressionSourceAt_unplaced (cause 1) place 0 ns]

theorem argumentSources_unplaced (cause : Cause) (place : Span) : ∀ ns : List Node,
    unlocated (argumentSources ⟨cause, .nowhere⟩ (unplacedAll ns)) =
      unlocated (argumentSources ⟨cause, place⟩ ns)
  | [] => by
    simp only [unplacedAll, argumentSources]
    rfl
  | ⟨_, _, _, arguments⟩ :: ns => by
    simp only [unplacedAll, unplaced, argumentSources]
    exact expressionSources_unplaced arguments

theorem expressionSources_unplaced : ∀ ns : List Node,
    unlocated (expressionSources (unplacedAll ns)) = unlocated (expressionSources ns)
  | [] => by simp only [unplacedAll, expressionSources]
  | n :: ns => by
    simp only [unplacedAll, expressionSources, unlocated_bind, expressionSource_unplaced n,
      expressionSources_unplaced ns]

end

theorem functionHeader_unplaced (name : String) (parameters : Node) :
    functionHeader name parameters.unplaced = functionHeader name parameters := by
  have htexts : parameters.unplaced.children.map Node.text = parameters.children.map Node.text := by
    simp
  rw [functionHeader, htexts, functionHeader]

mutual

theorem statementSource_unplaced (depth : Nat) : ∀ n : Node,
    unlocated (n.unplaced.statementSource depth) = unlocated (n.statementSource depth)
  | ⟨tag, _, span, children⟩ => by
    simp only [unplaced, statementSource]
    exact firstConstructSource_unplaced (.missingChild tag 0) span depth children

theorem firstConstructSource_unplaced (cause : Cause) (place : Span) (depth : Nat) :
    ∀ ns : List Node, unlocated (firstConstructSource ⟨cause, .nowhere⟩ depth (unplacedAll ns)) =
      unlocated (firstConstructSource ⟨cause, place⟩ depth ns)
  | [] => by
    simp only [unplacedAll, firstConstructSource]
    rfl
  | n :: ns => by
    simp only [unplacedAll, firstConstructSource]
    exact constructSource_unplaced depth n

theorem constructSource_unplaced (depth : Nat) : ∀ n : Node,
    unlocated (n.unplaced.constructSource depth) = unlocated (n.constructSource depth)
  | ⟨tag, text, span, children⟩ => by
    have hexpression := expressionSource_unplaced ⟨tag, text, span, children⟩
    cases tag with
    | conditional =>
        simp only [unplaced, constructSource, unlocated_bind,
          expressionSourceAt_unplaced (.missingChild .conditional 0) span 0 children,
          blockSourceAt_unplaced (.missingChild .conditional 1) span (depth + 1) 1 children,
          alternativeSourceAt_unplaced depth 2 children]
    | loop =>
        simp only [unplaced, constructSource, unlocated_bind,
          expressionSourceAt_unplaced (.missingChild .loop 0) span 0 children,
          blockSourceAt_unplaced (.missingChild .loop 1) span (depth + 1) 1 children]
    | function =>
        cases children with
        | nil =>
            simp only [unplaced, unplacedAll, constructSource]
            rfl
        | cons parameters rest =>
            simp only [unplaced, unplacedAll, constructSource, unlocated_bind,
              functionHeader_unplaced,
              blockSourceAt_unplaced (.missingChild .function 1) span (depth + 1) 0 rest]
    | definition =>
        cases children with
        | nil =>
            simp only [unplaced, unplacedAll, constructSource]
            rfl
        | cons target rest => simp only [unplaced, unplacedAll, constructSource, text_unplaced]
    | assignment =>
        simp only [unplaced, constructSource, unlocated_bind,
          assignmentSource_unplaced (.missingChild .assignment) span children]
    | _ =>
        simp only [unplaced] at hexpression
        simp only [unplaced, constructSource, unlocated_bind, hexpression]

theorem blockSourceAt_unplaced (cause : Cause) (place : Span) (depth : Nat) :
    ∀ (i : Nat) (ns : List Node),
    unlocated (blockSourceAt ⟨cause, .nowhere⟩ depth i (unplacedAll ns)) =
      unlocated (blockSourceAt ⟨cause, place⟩ depth i ns)
  | _, [] => by
    simp only [unplacedAll, blockSourceAt]
    rfl
  | 0, ⟨_, _, _, statements⟩ :: ns => by
    simp only [unplacedAll, unplaced, blockSourceAt]
    exact statementSources_unplaced depth statements
  | i + 1, n :: ns => by
    simp only [unplacedAll, blockSourceAt]
    exact blockSourceAt_unplaced cause place depth i ns

theorem alternativeSourceAt_unplaced (depth : Nat) : ∀ (i : Nat) (ns : List Node),
    unlocated (alternativeSourceAt depth i (unplacedAll ns)) =
      unlocated (alternativeSourceAt depth i ns)
  | _, [] => by simp only [unplacedAll, alternativeSourceAt]
  | 0, ⟨tag, _, span, blocks⟩ :: ns => by
    simp only [unplacedAll, unplaced, alternativeSourceAt, unlocated_bind,
      blockSourceAt_unplaced (.missingChild tag 0) span (depth + 1) 0 blocks]
  | i + 1, n :: ns => by
    simp only [unplacedAll, alternativeSourceAt]
    exact alternativeSourceAt_unplaced depth i ns

theorem statementSources_unplaced (depth : Nat) : ∀ ns : List Node,
    unlocated (statementSources depth (unplacedAll ns)) = unlocated (statementSources depth ns)
  | [] => by simp only [unplacedAll, statementSources]
  | n :: ns => by
    simp only [unplacedAll, statementSources, unlocated_bind, statementSource_unplaced depth n,
      statementSources_unplaced depth ns]

end

theorem source_unplaced (n : Node) : unlocated n.unplaced.source = unlocated n.source := by
  obtain ⟨tag, text, span, children⟩ := n
  cases tag with
  | program | block => exact statementSources_unplaced 0 children
  | statement => exact statementSource_unplaced 0 _
  | _ => exact expressionSource_unplaced _

end Node

/-! ## Symbol tables without places -/

namespace NameMap

variable {α β : Type}

/-- The same names, with other values. -/
def map (f : α → β) (m : NameMap α) : NameMap β :=
  ⟨m.entries.map fun e => (e.1, f e.2)⟩

theorem get?_map (f : α → β) (m : NameMap α) (name : String) :
    (m.map f).get? name = (m.get? name).map f := by
  obtain ⟨entries⟩ := m
  unfold map get?
  induction entries with
  | nil => rfl
  | cons e es ih =>
      obtain ⟨key, value⟩ := e
      simp only [List.map_cons, List.lookup_cons]
      cases name == key with
      | true => rfl
      | false => exact ih

theorem map_insert (f : α → β) (m : NameMap α) (name : String) (value : α) :
    (m.insert name value).map f = (m.map f).insert name (f value) := by
  unfold map insert
  simp [List.filter_map, Function.comp_def]

end NameMap

def Symbol.unplaced (s : Symbol) : Symbol :=
  { s with span := .nowhere }

def Region.unplaced (r : Region) : Region :=
  { r with symbols := r.symbols.map Symbol.unplaced }

namespace SymbolTable

def unplaced (t : SymbolTable) : SymbolTable :=
  { t with inner := t.inner.map Region.unplaced, global := t.global.unplaced }

theorem unplaced_declareIn (r : Region) (s : Symbol) :
    (r.declare s).unplaced = r.unplaced.declare s.unplaced := by
  unfold Region.declare Region.unplaced
  rw [NameMap.map_insert]
  rfl

theorem unplaced_declare (t : SymbolTable) (s : Symbol) :
    (t.declare s).unplaced = t.unplaced.declare s.unplaced := by
  obtain ⟨inner, global, counter⟩ := t
  cases inner with
  | nil =>
      simp only [declare, unplaced, unplaced_declareIn, List.map_nil]
      rfl
  | cons r rs => simp only [declare, unplaced, unplaced_declareIn, List.map_cons]

theorem unplaced_pop (t : SymbolTable) : t.pop.unplaced = t.unplaced.pop := by
  simp only [pop, unplaced, List.map_tail]

theorem unplaced_declareParameters (t : SymbolTable) (parameters : List Node) :
    (t.declareParameters parameters).unplaced =
      t.unplaced.declareParameters (parameters.map Node.unplaced) := by
  unfold declareParameters
  induction parameters generalizing t with
  | nil => rfl
  | cons p ps ih =>
      obtain ⟨_, text, span, _⟩ := p
      simp only [List.map_cons, List.foldl_cons]
      rw [ih, unplaced_declare]
      rfl

theorem lookup_unplaced (t : SymbolTable) (name : String) :
    t.unplaced.lookup name = (t.lookup name).map Symbol.unplaced := by
  have hregions : t.unplaced.regions = t.regions.map Region.unplaced := by
    simp [regions, unplaced]
  unfold lookup
  rw [hregions]
  induction t.regions with
  | nil => rfl
  | cons r rs ih =>
      have hget : r.unplaced.get? name = (r.get? name).map Symbol.unplaced :=
        NameMap.get?_map _ _ _
      simp only [List.map_cons, List.findSome?_cons, hget]
      cases r.get? name with
      | none => exact ih
      | some s => rfl

theorem resolve_unplaced (t : SymbolTable) (name : String) (place : Span) :
    unlocated (t.unplaced.resolve name .nowhere) = unlocated (t.resolve name place) := by
  unfold resolve
  rw [lookup_unplaced]
  cases t.lookup name <;> rfl

theorem unplaced_initial : initial.unplaced = initial := by
  simp only [initial, Intrinsic.all, List.foldl_cons, List.foldl_nil, unplaced_declare]
  rfl

/-! ## Resolution -/

/-- The results are the same table up to places, or faults of the same cause. -/
def SameUpToPlaces (x x' : Except Fault SymbolTable) : Prop :=
  unlocated x = (unlocated x').map unplaced

namespace SameUpToPlaces

variable {x x' : Except Fault SymbolTable}

theorem bind {f f' : SymbolTable → Except Fault SymbolTable} (h : SameUpToPlaces x x')
    (hf : ∀ t, SameUpToPlaces (f t.unplaced) (f' t)) : SameUpToPlaces (x >>= f) (x' >>= f') := by
  unfold SameUpToPlaces at h ⊢
  rw [unlocated_bind, unlocated_bind, h]
  cases x' with
  | error e => rfl
  | ok t => exact hf t

theorem after {u u' : Except Fault Unit} (h : unlocated u = unlocated u')
    (hx : SameUpToPlaces x x') : SameUpToPlaces (u >>= fun _ => x) (u' >>= fun _ => x') := by
  unfold SameUpToPlaces at hx ⊢
  rw [unlocated_bind, unlocated_bind, h, hx]
  cases u' <;> rfl

theorem pure {t t' : SymbolTable} (h : t = t'.unplaced) :
    SameUpToPlaces (Pure.pure t) (Pure.pure t') := by
  subst h
  rfl

end SameUpToPlaces

mutual

theorem walk_unplaced (t : SymbolTable) : ∀ n : Node,
    SameUpToPlaces (t.unplaced.walk n.unplaced) (t.walk n)
  | ⟨tag, text, span, children⟩ => by
    have hall := walkAll_unplaced t children
    cases tag with
    | name => exact .after (resolve_unplaced t text span) (.pure rfl)
    | call => exact .after (resolve_unplaced t text span) hall
    | definition =>
        cases children with
        | nil => rfl
        | cons target rest =>
            obtain ⟨_, name, place, _⟩ := target
            exact .pure (unplaced_declare t ⟨name, .var, place, 0⟩).symm
    | conditional =>
        refine (walkAt_unplaced t (.missingChild .conditional 0) span 0 children).bind fun t₁ => ?_
        refine (walkAt_unplaced (t₁.push .block) (.missingChild .conditional 1) span 1
          children).bind fun t₂ => ?_
        rw [← unplaced_pop]
        exact walkRest_unplaced t₂.pop 2 children
    | alternative =>
        refine (walkAt_unplaced (t.push .block) (.missingChild .alternative 0) span 0
          children).bind fun t₁ => ?_
        exact .pure (unplaced_pop t₁).symm
    | loop =>
        refine (walkAt_unplaced t (.missingChild .loop 0) span 0 children).bind fun t₁ => ?_
        refine (walkAt_unplaced (t₁.push .block) (.missingChild .loop 1) span 1
          children).bind fun t₂ => ?_
        exact .pure (unplaced_pop t₂).symm
    | function =>
        -- The declaration of the function comes first, so it has to be brought inside.
        have hdeclared := unplaced_declare t ⟨text, .function, span, 0⟩
        simp only [Node.unplaced, walk]
        change SameUpToPlaces (walkAt ((t.unplaced.declare
          (Symbol.unplaced ⟨text, .function, span, 0⟩)).push .function) _ 0 _ >>= _) _
        rw [← hdeclared]
        refine (walkAt_unplaced ((t.declare ⟨text, .function, span, 0⟩).push .function)
          (.missingChild .function 0) span 0 children).bind fun t₁ => ?_
        refine (walkAt_unplaced t₁ (.missingChild .function 1) span 1 children).bind fun t₂ => ?_
        exact .pure (unplaced_pop t₂).symm
    | parameters =>
        refine .pure ?_
        rw [unplaced_declareParameters, Node.unplacedAll_eq_map]
    | _ => exact hall

theorem walkAll_unplaced (t : SymbolTable) : ∀ ns : List Node,
    SameUpToPlaces (t.unplaced.walkAll (Node.unplacedAll ns)) (t.walkAll ns)
  | [] => .pure rfl
  | n :: ns => (walk_unplaced t n).bind fun t₁ => walkAll_unplaced t₁ ns

theorem walkAt_unplaced (t : SymbolTable) (cause : Cause) (place : Span) :
    ∀ (i : Nat) (ns : List Node),
    SameUpToPlaces (t.unplaced.walkAt ⟨cause, .nowhere⟩ i (Node.unplacedAll ns))
      (t.walkAt ⟨cause, place⟩ i ns)
  | _, [] => by
    simp only [Node.unplacedAll, walkAt]
    rfl
  | 0, n :: ns => by
    simp only [Node.unplacedAll, walkAt]
    exact walk_unplaced t n
  | i + 1, n :: ns => by
    simp only [Node.unplacedAll, walkAt]
    exact walkAt_unplaced t cause place i ns

theorem walkRest_unplaced (t : SymbolTable) : ∀ (i : Nat) (ns : List Node),
    SameUpToPlaces (t.unplaced.walkRest i (Node.unplacedAll ns)) (t.walkRest i ns)
  | _, [] => by
    simp only [Node.unplacedAll, walkRest]
    exact .pure rfl
  | 0, n :: ns => by
    simp only [Node.unplacedAll, walkRest]
    exact walk_unplaced t n
  | i + 1, n :: ns => by
    simp only [Node.unplacedAll, walkRest]
    exact walkRest_unplaced t i ns

end

end SymbolTable

theorem analyze_unplaced (n : Node) :
    SymbolTable.SameUpToPlaces (analyze n.unplaced) (analyze n) := by
  have h := SymbolTable.walk_unplaced .initial n
  rw [SymbolTable.unplaced_initial] at h
  exact h

end ScopeLang
