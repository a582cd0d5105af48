-- SUMMARY: Nothing that can be observed of a tree but the places themselves depends on its places.
import ScopeLang.Program
import ScopeLang.Proofs.Coupling
import ScopeLang.Proofs.Places

/-! # Independence of places

Take two trees that are equal but for their places, which need not be well
formed. They have the same dump and the same source text, the same global names
are declared in them, and running them looks the same from outside, up to the
places of faults. So a program may be laid out anew, or written out and read
again, and does the same.

The two runs are coupled: they come to the same scopes at all times, and these
hold the same values but for the places in the bodies of functions.
-/

namespace ScopeLang

/-! ## Observations -/

/-- What is told of a fault apart from its place. -/
def Cause.wording (c : Cause) : Code × String :=
  (c.code, c.message)

def Fault.wording (f : Fault) : Code × String :=
  f.cause.wording

/-- The wording of the fault that stopped a run, unless its fuel was used up. -/
def Stop.wording? : Stop → Option (Code × String)
  | .fault f => some f.wording
  | .outOfFuel => none

/-- What can be seen of a value. -/
def Value.shown (v : Value) : ValueType × String :=
  (v.type, v.render)

/-- What can be seen of a run from outside. -/
structure Observation where
  ending : Except (Option (Code × String)) (ValueType × String)
  output : Array UInt8
  /-- The names of the global scope and what can be seen of their values. -/
  globals : NameMap (Option (ValueType × String))

/-- Do anything with a new machine. -/
def Exec.observed (x : Exec Value) (console : Console) : Observation :=
  let start := Machine.initial console
  let final := x.final start
  { ending := ((x.outcome start).mapError Stop.wording?).map Value.shown
    output := final.console.sink.written
    globals := (final.store.bindings Store.globalId).map (·.map Value.shown) }

/-- Run a tree on a new machine. -/
def observe (fuel : Nat) (root : Node) (console : Console) : Observation :=
  (execute fuel root).observed console

/-! ## Trees that differ in places -/

theorem Node.forall₂_children {n n' : Node} (h : n.unplaced = n'.unplaced) :
    n.children.Forall₂ (fun c c' => c.unplaced = c'.unplaced) n'.children := by
  have hchildren : n.children.map unplaced = n'.children.map unplaced := by
    rw [← children_unplaced, ← children_unplaced, h]
  generalize n.children = cs at hchildren
  generalize n'.children = cs' at hchildren
  induction cs generalizing cs' with
  | nil =>
      cases List.map_eq_nil_iff.1 hchildren.symm
      exact .nil
  | cons c cs ih =>
      cases cs' with
      | nil => cases hchildren
      | cons c' cs' =>
          obtain ⟨hhead, htail⟩ := List.cons.inj hchildren
          exact .cons hhead (ih cs' htail)

theorem Node.tag_eq_of_unplaced {n n' : Node} (h : n.unplaced = n'.unplaced) : n'.tag = n.tag := by
  rw [← tag_unplaced, ← h, tag_unplaced]

theorem Node.text_eq_of_unplaced {n n' : Node} (h : n.unplaced = n'.unplaced) :
    n'.text = n.text := by
  rw [← text_unplaced, ← h, text_unplaced]

/-- Both nodes have a child at a position, or both lack it. -/
theorem Node.rel_child {n n' : Node} (h : n.unplaced = n'.unplaced) (i : Nat) :
    Option.Rel (fun c c' => c.unplaced = c'.unplaced) n.children[i]? n'.children[i]? := by
  have hchildren := forall₂_children h
  generalize n.children = cs at hchildren
  generalize n'.children = cs' at hchildren
  induction hchildren generalizing i with
  | nil => exact .none
  | cons hc _ ih =>
      cases i with
      | zero => exact .some hc
      | succ i => exact ih i

/-! ## The coupling -/

/-- Two runs that may differ in places only. -/
def upToPlaces : Coupling where
  node n n' := n.unplaced = n'.unplaced
  shared _ := True
  apart _ _ _ := True
  console := Eq
  fault f g := f.cause = g.cause

theorem lawful_upToPlaces : upToPlaces.Lawful where
  tag := Node.tag_eq_of_unplaced
  text := Node.text_eq_of_unplaced
  child {n n' i use} h _ := by
    obtain ⟨hc, hc'⟩ | ⟨c, c', hc, hc', hsame⟩ := Coupling.rel_cases (Node.rel_child h i)
    · refine .missing hc hc' ?_
      change Cause.missingChild n.tag i = Cause.missingChild n'.tag i
      rw [Node.tag_eq_of_unplaced h]
    · refine .present c c' hc hc' ?_
      cases use with
      | evaluated => exact hsame
      | named => exact Node.text_eq_of_unplaced hsame
      | parameters =>
          change c'.children.map Node.text = c.children.map Node.text
          have htexts := Node.forall₂_children hsame
          generalize c.children = cs at htexts
          generalize c'.children = cs' at htexts
          induction htexts with
          | nil => rfl
          | cons hp _ ih =>
              rw [List.map_cons, List.map_cons, Node.text_eq_of_unplaced hp, ih]
      | arguments => exact Node.forall₂_children hsame
  statements h _ := Node.forall₂_children h
  alternative h _ := Node.rel_child h 2
  fault _ _ := rfl
  childFault _ _ _ _ := rfl
  write _ h := by
    cases h
    exact ⟨rfl, rfl⟩
  readWord h := by
    cases h
    exact ⟨rfl, rfl⟩

theorem shown_eq {v w : Value} (h : upToPlaces.Values v w) : w.shown = v.shown := by
  unfold Value.shown
  rw [h.type, h.render]

theorem bindings_shown_eq {m m' : NameMap (Option Value)} (h : upToPlaces.Bindings m m') :
    m'.map (·.map Value.shown) = m.map (·.map Value.shown) := by
  obtain ⟨entries⟩ := m
  obtain ⟨entries'⟩ := m'
  unfold NameMap.map
  congr 1
  change entries.Forall₂ _ entries' at h
  induction h with
  | nil => rfl
  | @cons e e' _ _ hentry _ ih =>
      obtain ⟨name, v?⟩ := e
      obtain ⟨name', v?'⟩ := e'
      obtain ⟨hname, hvalue⟩ := hentry
      cases hname
      have hshown : v?'.map Value.shown = v?.map Value.shown := by
        cases hvalue with
        | none => rfl
        | some hv => exact congrArg some (shown_eq hv)
      simp only [List.map_cons, hshown, ih]

theorem machines_initial (console : Console) :
    upToPlaces.Machines (.initial console) (.initial console) :=
  ⟨.initial fun _ => trivial, rfl⟩

/-- Runs that may differ in places only look the same. -/
theorem observed_eq_of_relates {x y : Exec Value}
    (hruns : upToPlaces.Relates upToPlaces.Values x y) (console : Console) :
    y.observed console = x.observed console := by
  have hstart := machines_initial console
  have hfinal := hruns.final hstart
  have hconsole : (x.final (.initial console)).console = (y.final (.initial console)).console :=
    hfinal.console
  unfold Exec.observed
  dsimp only
  rw [hconsole, bindings_shown_eq (hfinal.store.bindings trivial)]
  congr 1
  obtain ⟨v, w, hv, hw, hsame⟩ | ⟨e, e', he, he', hsame⟩ := hruns.outcome hstart
  · rw [hv, hw]
    exact congrArg Except.ok (shown_eq hsame)
  · rw [he, he']
    cases hsame with
    | @fault f g same =>
        have hcause : f.cause = g.cause := same
        simp only [Except.mapError, Except.map, Stop.wording?, Fault.wording, hcause]
    | outOfFuel => rfl

/-- A run looks the same wherever its tree is placed. -/
theorem observe_eq_of_unplaced {n n' : Node} (h : n.unplaced = n'.unplaced) (fuel : Nat)
    (console : Console) : observe fuel n' console = observe fuel n console :=
  observed_eq_of_relates (lawful_upToPlaces.eval fuel h trivial) console

/-! ## Nothing depends on places -/

/-- Equal results up to the places of faults have faults of the same wording. -/
theorem mapError_wording {α : Type} (x : Except Fault α) :
    x.mapError Fault.wording = (unlocated x).mapError Cause.wording := by
  cases x <;> rfl

theorem globals_unplaced (t : SymbolTable) :
    t.unplaced.globals = t.globals.map Symbol.unplaced := by
  simp [SymbolTable.globals, SymbolTable.unplaced, Region.unplaced, NameMap.inOrder, NameMap.map,
    Function.comp_def]

/-- What resolution finds in the global region. -/
theorem map_globals_of_analyze (n : Node) :
    ((analyze n).mapError Fault.wording).map (·.globals.map Symbol.unplaced) =
      ((unlocated (analyze n.unplaced)).mapError Cause.wording).map (·.globals) := by
  rw [analyze_unplaced n, mapError_wording]
  cases analyze n with
  | error f => rfl
  | ok t => exact congrArg Except.ok (globals_unplaced t).symm

/-- Trees that are equal up to places have the same dump and are written alike, declare the
same global names, and run alike; where one of them is at fault, so is the other, with the
same code and message. -/
theorem places_unobservable {n n' : Node} (h : n.unplaced = n'.unplaced) :
    n'.dump = n.dump ∧
    n'.source.mapError Fault.wording = n.source.mapError Fault.wording ∧
    ((analyze n').mapError Fault.wording).map (·.globals.map Symbol.unplaced) =
      ((analyze n).mapError Fault.wording).map (·.globals.map Symbol.unplaced) ∧
    ∀ fuel console, observe fuel n' console = observe fuel n console := by
  refine ⟨?_, ?_, ?_, observe_eq_of_unplaced h⟩
  · rw [← Node.dump_unplaced, ← h, Node.dump_unplaced]
  · rw [mapError_wording, ← Node.source_unplaced, ← h, Node.source_unplaced, ← mapError_wording]
  · rw [map_globals_of_analyze, ← h, ← map_globals_of_analyze]

/-- A program that writes a function and then comes upon a sum without its second operand,
at two places. -/
theorem places_unobservable_malformed :
    let program := fun place : Span =>
      Node.inner .program place
        [.inner .statement place [⟨.function, "f", place, [.inner .parameters place [],
          .inner .block place [.inner .statement place [.leaf .number "1" place]]]⟩],
        .inner .statement place [⟨.call, "print", place,
          [.inner .arguments place [.leaf .name "f" place]]⟩],
        .inner .statement place [.inner (.binary (.arithmetic .add)) place
          [.leaf .number "1" place]]]
    (program ⟨1, 1⟩).unplaced = (program ⟨2, 7⟩).unplaced ∧
      observe 9 (program ⟨2, 7⟩) {} = observe 9 (program ⟨1, 1⟩) {} ∧
      (observe 9 (program ⟨1, 1⟩) {}).output = (Text.bytes "<function f>").toArray ∧
      (observe 9 (program ⟨1, 1⟩) {}).ending =
        .error (some (.malformedTree, "malformed ADD node: missing child 1")) := by
  intro program
  have hsame : (program ⟨1, 1⟩).unplaced = (program ⟨2, 7⟩).unplaced := rfl
  exact ⟨hsame, (places_unobservable hsame).2.2.2 9 {}, by decide +kernel, by decide +kernel⟩

end ScopeLang
