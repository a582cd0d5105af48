-- SUMMARY: Owners of names lie at the resolved depth, unless a later definition came between.
import Mathlib.Data.List.Nodup
import ScopeLang.Proofs.Coupling
import ScopeLang.Proofs.Finders

/-! # Lexical scoping

`Program.lexical` goes straight to the scope at the depth at which a name was
resolved, and `Program.watched` goes to the owner of the name but stops if the
owner does not lie at one of the depths that it is given for the use.

On a program that compiles, evaluation that watches for the resolved depth and
its rivals never stops for that reason, so this is where owners lie at every
read, call and assignment of a run. If no use in the program has a rival, lexical
evaluation does what `eval` does. With a rival it need not: a function sees a
variable that is defined between it and the one that its name was resolved to, as
soon as the definition has been reached.
-/

namespace ScopeLang

/-! ## Finders of a program -/

/-- The use at a place. -/
def Program.use? (p : Program) (place : Span) : Option Use :=
  p.uses.find? (·.place == place)

/-- Names the owner, or stops if it does not lie at one of the depths that the use at the
place has. -/
def Program.watched (p : Program) (depths : Use → List Nat) (stop : Stop) : Finder :=
  fun place name env st =>
    match p.use? place with
    | some u =>
      if u.name = name ∧ u.ownedAt (depths u) st env then .ok (st.owner env name) else .error stop
    | none => .error stop

/-- Names the scope around `env` at the depth at which the name was resolved. -/
def Program.lexical (p : Program) : Finder :=
  fun place name env st =>
    let id? := ((p.use? place).bind Use.depth?).bind fun d => (st.chain env).reverse[d]?
    match id? with
    | some id => .ok id
    | none => .error (.fault ⟨.undefinedName name, place⟩)

namespace Program

variable {source : String} {p : Program} {u : Use}

/-- A place says which use it is. -/
theorem use?_of_mem (hcompile : compile source = .ok p) (hu : u ∈ p.uses) :
    p.use? u.place = some u := by
  have hsome : (p.use? u.place).isSome = true :=
    List.find?_isSome.2 ⟨u, hu, beq_self_eq_true u.place⟩
  obtain ⟨u', hu'⟩ := Option.isSome_iff_exists.1 hsome
  have hplace : (u'.place == u.place) = true :=
    List.find?_some (p := fun x : Use => x.place == u.place) hu'
  have hmem : u' ∈ p.uses := List.mem_of_find?_eq_some hu'
  rw [hu', List.inj_on_of_nodup_map (nodup_places hcompile) hmem hu (eq_of_beq hplace)]

/-- Whoever watches for all depths of a use never has to stop there. -/
theorem watched_rightAt (hcompile : compile source = .ok p) (hu : u ∈ p.uses) (stop : Stop) :
    (p.watched Use.depths stop).RightAt u := by
  intro st env howned
  unfold watched
  rw [use?_of_mem hcompile hu]
  exact if_pos ⟨rfl, howned⟩

/-- If a use has no rivals, the owner of its name is the scope at the resolved depth. -/
theorem lexical_rightAt (hcompile : compile source = .ok p) (hu : u ∈ p.uses)
    (hrivals : u.rivals = []) : p.lexical.RightAt u := by
  intro st env howned
  have hdepth : u.depth? = some (st.depth (st.owner env u.name)) := by
    have hmem := List.contains_iff_mem.1 (Bool.and_eq_true_iff.1 howned).2
    unfold Use.depths at hmem
    split at hmem
    next d hd =>
      rw [hrivals, List.mem_singleton] at hmem
      rw [hd, hmem]
    next => cases hmem
  unfold lexical
  rw [use?_of_mem hcompile hu, Option.bind_some, hdepth, Option.bind_some,
    Store.reverse_chain_owner]

end Program

/-! ## Runs -/

section Start

variable {st : Store} {plan : List Region} {id : ScopeId} {t : SymbolTable} {closing : List Region}

/-- Intrinsics are bound as they are declared. -/
theorem Store.Mirrors.declareIntrinsics (intrinsics : List Intrinsic)
    (h : st.Mirrors plan id true t.regions closing) :
    (intrinsics.foldl (fun st i => st.bind id i.name (.intrinsic i)) st).Mirrors plan id true
      (intrinsics.foldl (fun t i => t.declare ⟨i.name, .intrinsic, .nowhere, 0⟩) t).regions
      closing := by
  induction intrinsics generalizing st t with
  | nil => exact h
  | cons i intrinsics ih => exact ih (h.declare ⟨i.name, .intrinsic, .nowhere, 0⟩ _)

/-- A run starts where resolution starts. The plan for the global scope is a region that
declares the intrinsics, whatever else it declares. -/
theorem Store.at_initial (good : Use → Prop) {c : Region}
    (hc : ∀ i ∈ Intrinsic.all, c.declares i.name = true) :
    Store.initial.At good [c] Store.globalId .initial [c] := by
  have hempty : ∀ id name, ¬ Store.empty.binds id name = true := by
    intro id name
    cases id with
    | zero => nofun
    | succ id => nofun
  have hcharted : Store.empty.Charted good [c] := by
    refine ⟨⟨rfl, fun id _ name _ hname => absurd hname (hempty id name)⟩, ?_⟩
    intro id name v hget
    exact absurd (Store.binds_iff.2 (hget ▸ rfl)) (hempty id name)
  have hmirrors : Store.empty.Mirrors [c] Store.globalId true ({} : SymbolTable).regions [c] :=
    .outermost ⟨by decide, rfl, nofun, fun _ name hname => absurd hname (hempty _ name)⟩ rfl
  refine ⟨?_, hmirrors.declareIntrinsics Intrinsic.all⟩
  rw [Store.initial_eq]
  refine hcharted.bindAll ?_ ?_
  · intro name hname c' hc'
    cases hc'
    obtain ⟨x, hx, rfl⟩ := List.mem_map.1 hname
    obtain ⟨i, hi, rfl⟩ := List.mem_map.1 hx
    exact hc i hi
  · intro v hv
    obtain ⟨x, hx, rfl⟩ := List.mem_map.1 hv
    obtain ⟨i, -, rfl⟩ := List.mem_map.1 hx
    trivial

end Start

/-- A run follows its regions up to the global one as it is when the program is resolved, if
the finder is right about all uses. -/
theorem follows_execute {source : String} {p : Program} (hcompile : compile source = .ok p)
    {find : Finder} (hright : ∀ u ∈ p.uses, find.RightAt u) (fuel : Nat) (console : Console) :
    Follows find.RightAt Store.globalId (executeFound find fuel p.root) (execute fuel p.root)
      (.initial console) [p.symbols.current]
      (Ends find.RightAt Store.globalId p.symbols [p.symbols.current]) := by
  obtain ⟨hroot, hanalyze⟩ := resolved_of_compile hcompile
  have hdeclared : ∀ i ∈ Intrinsic.all, p.symbols.current.declares i.name = true := by
    intro i hi
    have hinitial : SymbolTable.initial.current.declares i.name = true := by
      revert i
      decide
    exact SymbolTable.declares_of_walk hroot hanalyze hinitial
  -- The table that results has the global region only, as it is when it is closed.
  have hat : Store.initial.At find.RightAt [p.symbols.current] Store.globalId .initial
      [p.symbols.current] := Store.at_initial _ hdeclared
  exact followsScopes_eval find fuel hroot hanalyze hright (p.symbols.closes_current []) hat

/-- A run does not depend on who finds the names, if the finder is right about all uses. -/
theorem executeFound_eq {source : String} {p : Program} (hcompile : compile source = .ok p)
    {find : Finder} (hright : ∀ u ∈ p.uses, find.RightAt u) (fuel : Nat) (console : Console) :
    executeFound find fuel p.root (.initial console) = execute fuel p.root (.initial console) :=
  (follows_execute hcompile hright fuel console).found_eq

/-- In every run of a program that compiles, the owner of a name that is read, called or
assigned to binds the name, and lies at the depth of the region in which resolution found the
name or, further inside, at that of a rival. If no use has a rival, the program runs as if
each name were taken straight from the scope at the resolved depth. -/
theorem compiled_lexically_scoped {source : String} {p : Program}
    (hcompile : compile source = .ok p) :
    (∀ u ∈ p.uses, p.use? u.place = some u ∧
      u.table.lookup u.name = u.region?.bind (·.get? u.name) ∧
      ∀ d ∈ u.depth?, ∀ rival ∈ u.rivals, d < rival) ∧
    ∀ fuel console,
      (∀ stop, executeFound (p.watched Use.depths stop) fuel p.root (.initial console) =
        execute fuel p.root (.initial console)) ∧
      ((∀ u ∈ p.uses, u.rivals = []) →
        executeFound p.lexical fuel p.root (.initial console) =
          execute fuel p.root (.initial console)) := by
  constructor
  · intro u hu
    refine ⟨Program.use?_of_mem hcompile hu, u.lookup_eq, ?_⟩
    exact fun d hd rival hrival => Region.lt_of_mem_rivals hd hrival
  · intro fuel console
    constructor
    · intro stop
      exact executeFound_eq hcompile (fun u hu => p.watched_rightAt hcompile hu stop) fuel console
    · intro hrivals
      refine executeFound_eq hcompile (fun u hu => ?_) fuel console
      exact p.lexical_rightAt hcompile hu (hrivals u hu)

/-- A function that outlives the call that created it takes the parameter of that call from
the frame at depth one. -/
theorem compiled_lexically_scoped_closure :
    let source := "var g; function make(n) { function get() { n; } g = get; } make(7); g();"
    ∃ p, compile source = .ok p ∧
      p.uses.map Use.depth? = [some 1, some 0, some 1, some 0, some 0] ∧
      (∀ u ∈ p.uses, u.rivals = []) ∧
      executeFound p.lexical 20 p.root (.initial {}) = execute 20 p.root (.initial {}) ∧
      ((execute 20 p.root).outcome (.initial {})).map Value.render = .ok "7" := by
  intro source
  have hrun : (compile source).map (fun p => (p.uses.map Use.depth?, p.uses.flatMap Use.rivals,
      ((execute 20 p.root).outcome (.initial {})).map Value.render)) =
      .ok ([some 1, some 0, some 1, some 0, some 0], [], .ok "7") := by
    decide +kernel
  cases hcompile : compile source with
  | error f =>
      rw [hcompile] at hrun
      cases hrun
  | ok p =>
      rw [hcompile] at hrun
      obtain ⟨hdepths, hothers⟩ := Prod.mk.inj (Except.ok.inj hrun)
      obtain ⟨hnone, hvalue⟩ := Prod.mk.inj hothers
      have hrivals : ∀ u ∈ p.uses, u.rivals = [] := List.flatMap_eq_nil_iff.1 hnone
      have hlexical := ((compiled_lexically_scoped hcompile).2 20 {}).2 hrivals
      exact ⟨p, rfl, hdepths, hrivals, hlexical, hvalue⟩

/-- A function whose name was resolved to the outer variable sees the inner one, which is
defined after it. Neither does the owner lie at the resolved depth, nor does the run agree
with lexical evaluation. -/
theorem not_lexically_scoped_later_definition :
    let source := "var x; x = 1; if (1) { function g() { x; } var x; x = 2; g(); }"
    ∃ p, compile source = .ok p ∧
      ((execute 20 p.root).outcome (.initial {})).map Value.render = .ok "2" ∧
      ((executeFound p.lexical 20 p.root).outcome (.initial {})).map Value.render = .ok "1" ∧
      ((executeFound (p.watched (·.depth?.toList) .outOfFuel) 20 p.root).outcome
        (.initial {})).map Value.render = .error .outOfFuel := by
  intro source
  have hrun : (compile source).map (fun p => (
      ((execute 20 p.root).outcome (.initial {})).map Value.render,
      ((executeFound p.lexical 20 p.root).outcome (.initial {})).map Value.render,
      ((executeFound (p.watched (·.depth?.toList) .outOfFuel) 20 p.root).outcome
        (.initial {})).map Value.render)) =
      .ok (.ok "2", .ok "1", .error .outOfFuel) := by
    decide +kernel
  cases hcompile : compile source with
  | error f =>
      rw [hcompile] at hrun
      cases hrun
  | ok p =>
      rw [hcompile] at hrun
      obtain ⟨hvalue, hothers⟩ := Prod.mk.inj (Except.ok.inj hrun)
      obtain ⟨hlexical, hwatched⟩ := Prod.mk.inj hothers
      exact ⟨p, rfl, hvalue, hlexical, hwatched⟩

end ScopeLang
