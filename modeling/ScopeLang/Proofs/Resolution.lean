-- SUMMARY: What name resolution does to the table of open regions, node by node.
import ScopeLang.Proofs.WellFormed
import ScopeLang.Symbol.Resolve

/-! # Resolution of well-formed trees

Resolution succeeds on a node if it succeeds on its children, one after another,
each in the table that the one before it left. The lemmas say so for each kind of
node. An expression leaves the table as it is and everything else changes at most
the innermost region, so that closing a region that was opened for a block brings
back the table from before.
-/

namespace ScopeLang.SymbolTable

/-! ## Visible names -/

/-- Whether a name refers to a declaration. -/
def sees (t : SymbolTable) (name : String) : Bool :=
  (t.lookup name).isSome

section Names

variable {t : SymbolTable} {name : String}

theorem sees_iff : t.sees name = true ↔ ∃ r ∈ t.regions, (r.get? name).isSome = true := by
  rw [sees, lookup, List.findSome?_isSome_iff]

theorem sees_push (kind : RegionKind) : (t.push kind).sees name = t.sees name := rfl

theorem isSome_get?_declare {r : Region} {s : Symbol} :
    ((r.declare s).get? name).isSome = true ↔ name = s.name ∨ (r.get? name).isSome = true := by
  rw [Region.declare, Region.get?]
  by_cases h : name = s.name
  · subst h
    simp
  · rw [NameMap.get?_insert_of_ne _ _ h]
    simp [h, Region.get?]

/-- Declaring a name makes it visible, and nothing else. -/
theorem sees_declare {s : Symbol} :
    (t.declare s).sees name = true ↔ name = s.name ∨ t.sees name = true := by
  obtain ⟨inner, global, counter⟩ := t
  rw [sees_iff, sees_iff]
  cases inner with
  | nil => simp [declare, regions, isSome_get?_declare]
  | cons r outer => simp [declare, regions, isSome_get?_declare, or_assoc]

/-- Declaring names one after another makes all of them visible, and nothing else. -/
theorem sees_foldl_declare {α : Type} {symbol : α → Symbol} {xs : List α} :
    (xs.foldl (fun t x => t.declare (symbol x)) t).sees name = true ↔
      name ∈ xs.map (fun x => (symbol x).name) ∨ t.sees name = true := by
  induction xs generalizing t with
  | nil => simp
  | cons x xs ih =>
      rw [List.foldl_cons, ih, sees_declare, List.map_cons, List.mem_cons]
      constructor
      · rintro (h | h | h)
        · exact .inl (.inr h)
        · exact .inl (.inl h)
        · exact .inr h
      · rintro ((h | h) | h)
        · exact .inr (.inl h)
        · exact .inl h
        · exact .inr (.inr h)

theorem sees_declareParameters {parameters : List Node} :
    (t.declareParameters parameters).sees name = true ↔
      name ∈ parameters.map Node.text ∨ t.sees name = true :=
  sees_foldl_declare

/-- Before a program, the intrinsics are visible. -/
theorem sees_initial : initial.sees name = true ↔ name ∈ Intrinsic.all.map Intrinsic.name := by
  have hempty : ({} : SymbolTable).sees name = false := rfl
  rw [initial, sees_foldl_declare, hempty]
  simp

theorem sees_of_resolve {place : Span} {u : Unit} (h : t.resolve name place = .ok u) :
    t.sees name = true := by
  rw [resolve] at h
  rw [sees]
  split at h
  next s hs => rw [hs]; rfl
  next => cases h

end Names

/-! ## Node by node -/

-- Derives the equations of the four functions here, once, for all the lemmas below.
attribute [local simp] walk walkAll walkAt walkRest

theorem exists_of_bind_eq_ok {ε α β : Type} {x : Except ε α} {f : α → Except ε β} {b : β}
    (h : (x >>= f) = .ok b) : ∃ a, x = .ok a ∧ f a = .ok b := by
  cases x with
  | error e => cases h
  | ok a => exact ⟨a, rfl, h⟩

section Nodes

variable {t t' : SymbolTable} {place place' : Span}

theorem walk_name {spelling : String} (h : t.walk (.leaf .name spelling place) = .ok t') :
    t.sees spelling = true ∧ t' = t := by
  rw [Node.leaf, walk] at h
  obtain ⟨u, hresolve, h⟩ := exists_of_bind_eq_ok h
  cases h
  exact ⟨sees_of_resolve hresolve, rfl⟩

theorem walk_binary {op : Operator} {left right : Node}
    (h : t.walk (.inner (.binary op) place [left, right]) = .ok t') :
    ∃ t₁, t.walk left = .ok t₁ ∧ t₁.walk right = .ok t' := by
  simp only [Node.inner, walk, walkAll] at h
  obtain ⟨t₁, hleft, h⟩ := exists_of_bind_eq_ok h
  obtain ⟨t₂, hright, h⟩ := exists_of_bind_eq_ok h
  cases h
  exact ⟨t₁, hleft, hright⟩

theorem walk_assignment {target : String} {value : Node}
    (h : t.walk (.inner .assignment place' [.leaf .name target place, value]) = .ok t') :
    t.sees target = true ∧ t.walk value = .ok t' := by
  simp only [Node.inner, walk, walkAll] at h
  obtain ⟨t₁, htarget, h⟩ := exists_of_bind_eq_ok h
  obtain ⟨t₂, hvalue, h⟩ := exists_of_bind_eq_ok h
  cases h
  obtain ⟨hsees, rfl⟩ := walk_name htarget
  exact ⟨hsees, hvalue⟩

theorem walk_call {callee : String} {arguments : List Node}
    (h : t.walk ⟨.call, callee, place, [.inner .arguments place' arguments]⟩ = .ok t') :
    t.sees callee = true ∧ t.walkAll arguments = .ok t' := by
  simp only [Node.inner, walk, walkAll] at h
  obtain ⟨u, hresolve, h⟩ := exists_of_bind_eq_ok h
  obtain ⟨t₁, harguments, h⟩ := exists_of_bind_eq_ok h
  cases h
  exact ⟨sees_of_resolve hresolve, harguments⟩

theorem walk_definition {target : String}
    (h : t.walk (.inner .definition place' [.leaf .name target place]) = .ok t') :
    t' = t.declare ⟨target, .var, place, 0⟩ := by
  simp only [Node.inner, walk] at h
  cases h
  rfl

theorem walk_conditional {test body : Node}
    (h : t.walk (.inner .conditional place [test, body]) = .ok t') :
    ∃ t₁ t₂, t.walk test = .ok t₁ ∧ (t₁.push .block).walk body = .ok t₂ ∧ t' = t₂.pop := by
  simp only [Node.inner, walk, walkAt, walkRest] at h
  obtain ⟨t₁, htest, h⟩ := exists_of_bind_eq_ok h
  obtain ⟨t₂, hbody, h⟩ := exists_of_bind_eq_ok h
  cases h
  exact ⟨t₁, t₂, htest, hbody, rfl⟩

theorem walk_conditionalElse {test body otherwise : Node}
    (h : t.walk (.inner .conditional place [test, body, otherwise]) = .ok t') :
    ∃ t₁ t₂, t.walk test = .ok t₁ ∧ (t₁.push .block).walk body = .ok t₂ ∧
      t₂.pop.walk otherwise = .ok t' := by
  simp only [Node.inner, walk, walkAt, walkRest] at h
  obtain ⟨t₁, htest, h⟩ := exists_of_bind_eq_ok h
  obtain ⟨t₂, hbody, h⟩ := exists_of_bind_eq_ok h
  exact ⟨t₁, t₂, htest, hbody, h⟩

theorem walk_alternative {body : Node}
    (h : t.walk (.inner .alternative place [body]) = .ok t') :
    ∃ t₁, (t.push .block).walk body = .ok t₁ ∧ t' = t₁.pop := by
  simp only [Node.inner, walk, walkAt] at h
  obtain ⟨t₁, hbody, h⟩ := exists_of_bind_eq_ok h
  cases h
  exact ⟨t₁, hbody, rfl⟩

theorem walk_loop {test body : Node} (h : t.walk (.inner .loop place [test, body]) = .ok t') :
    ∃ t₁ t₂, t.walk test = .ok t₁ ∧ (t₁.push .block).walk body = .ok t₂ ∧ t' = t₂.pop := by
  simp only [Node.inner, walk, walkAt] at h
  obtain ⟨t₁, htest, h⟩ := exists_of_bind_eq_ok h
  obtain ⟨t₂, hbody, h⟩ := exists_of_bind_eq_ok h
  cases h
  exact ⟨t₁, t₂, htest, hbody, rfl⟩

theorem walk_function {spelling : String} {parameters : List Node} {body : Node}
    (h : t.walk ⟨.function, spelling, place, [.inner .parameters place' parameters, body]⟩ =
      .ok t') :
    ∃ t₁, (((t.declare ⟨spelling, .function, place, 0⟩).push .function).declareParameters
      parameters).walk body = .ok t₁ ∧ t' = t₁.pop := by
  simp only [Node.inner, walk, walkAt] at h
  obtain ⟨t₁, hparameters, h⟩ := exists_of_bind_eq_ok h
  cases hparameters
  obtain ⟨t₂, hbody, h⟩ := exists_of_bind_eq_ok h
  cases h
  exact ⟨t₂, hbody, rfl⟩

theorem walk_statement {inside : Node}
    (h : t.walk (.inner .statement place [inside]) = .ok t') : t.walk inside = .ok t' := by
  simp only [Node.inner, walk, walkAll] at h
  obtain ⟨t₁, hinside, h⟩ := exists_of_bind_eq_ok h
  cases h
  exact hinside

theorem walk_block {statements : List Node}
    (h : t.walk (.inner .block place statements) = .ok t') : t.walkAll statements = .ok t' := by
  simpa only [Node.inner, walk] using h

theorem walk_program {statements : List Node}
    (h : t.walk (.inner .program place statements) = .ok t') : t.walkAll statements = .ok t' := by
  simpa only [Node.inner, walk] using h

theorem walkAll_cons {n : Node} {ns : List Node} (h : t.walkAll (n :: ns) = .ok t') :
    ∃ t₁, t.walk n = .ok t₁ ∧ t₁.walkAll ns = .ok t' := by
  rw [walkAll] at h
  exact exists_of_bind_eq_ok h

end Nodes

/-! ## What stays -/

/-- The tables differ in their innermost region only. -/
def SameOutside (t t' : SymbolTable) : Prop :=
  match t.inner with
  | [] => t'.inner = []
  | _ :: outer => ∃ r, t' = { t with inner := r :: outer }

namespace SameOutside

variable {t t' t'' : SymbolTable}

theorem refl (t : SymbolTable) : SameOutside t t := by
  obtain ⟨inner, global, counter⟩ := t
  cases inner with
  | nil => rfl
  | cons r outer => exact ⟨r, rfl⟩

theorem trans (h : SameOutside t t') (h' : SameOutside t' t'') : SameOutside t t'' := by
  obtain ⟨inner, global, counter⟩ := t
  cases inner with
  | nil =>
      have hinner : t'.inner = [] := h
      rw [SameOutside, hinner] at h'
      exact h'
  | cons r outer =>
      obtain ⟨r', rfl⟩ := h
      exact h'

theorem declare (t : SymbolTable) (s : Symbol) : SameOutside t (t.declare s) := by
  obtain ⟨inner, global, counter⟩ := t
  cases inner with
  | nil => rfl
  | cons r outer => exact ⟨r.declare s, rfl⟩

theorem declareParameters (t : SymbolTable) (parameters : List Node) :
    SameOutside t (t.declareParameters parameters) := by
  induction parameters generalizing t with
  | nil => exact refl t
  | cons p parameters ih => exact (SameOutside.declare t _).trans (ih _)

/-- Closing the region that was opened brings back the table. -/
theorem pop_eq {kind : RegionKind} (h : SameOutside (t.push kind) t') : t'.pop = t := by
  obtain ⟨r, rfl⟩ := h
  rfl

end SameOutside

/-- What resolving a node leaves as it was: expressions change nothing, and statements
nothing outside the innermost region. -/
def Leaves : Role → SymbolTable → SymbolTable → Prop
  | .expression, t, t' | .parameter, t, t' | .alternative, t, t' => t' = t
  | .construct, t, t' | .statement, t, t' | .block, t, t' | .program, t, t' => SameOutside t t'

section Leaves

variable {v : Vocabulary} {t t' : SymbolTable}

/-- What holds between the tables before and after each of some nodes holds between the
first and the last one. -/
theorem walkAll_induction {R : SymbolTable → SymbolTable → Prop} {ns : List Node}
    (hrefl : ∀ t, R t t) (htrans : ∀ t t' t'', R t t' → R t' t'' → R t t'')
    (ih : ∀ n ∈ ns, ∀ {t t' : SymbolTable}, t.walk n = .ok t' → R t t')
    (h : t.walkAll ns = .ok t') : R t t' := by
  induction ns generalizing t with
  | nil =>
      cases h
      exact hrefl _
  | cons n ns ihns =>
      obtain ⟨t₁, hn, hns⟩ := walkAll_cons h
      exact htrans _ _ _ (ih n (by simp) hn) (ihns (fun x hx => ih x (by simp [hx])) hns)

/-- Expressions one after another change nothing. -/
theorem walkAll_eq {ns : List Node}
    (ih : ∀ n ∈ ns, ∀ {t t' : SymbolTable}, t.walk n = .ok t' → t' = t)
    (h : t.walkAll ns = .ok t') : t' = t :=
  walkAll_induction (R := fun t t' => t' = t) (fun _ => rfl) (fun _ _ _ h h' => h'.trans h) ih h

theorem leaves_of_walk {role : Role} {n : Node} (hn : WellFormed v role n)
    (h : t.walk n = .ok t') : Leaves role t t' := by
  induction hn generalizing t t' with
  | number | text =>
      cases h
      rfl
  | name | parameter => exact (walk_name h).2
  | binary _ _ ihleft ihright =>
      obtain ⟨t₁, hleft, hright⟩ := walk_binary h
      exact (ihright hright).trans (ihleft hleft)
  | assignment _ _ ihvalue => exact ihvalue (walk_assignment h).2
  | call _ _ iharguments => exact walkAll_eq iharguments (walk_call h).2
  | evaluation _ ih =>
      obtain rfl := ih h
      exact .refl _
  | definition =>
      rw [walk_definition h]
      exact .declare _ _
  | conditional _ _ ihtest ihbody =>
      obtain ⟨t₁, t₂, htest, hbody, rfl⟩ := walk_conditional h
      obtain rfl := ihtest htest
      rw [(ihbody hbody).pop_eq]
      exact .refl _
  | conditionalElse _ _ _ ihtest ihbody ihotherwise =>
      obtain ⟨t₁, t₂, htest, hbody, hotherwise⟩ := walk_conditionalElse h
      obtain rfl := ihtest htest
      rw [(ihbody hbody).pop_eq] at hotherwise
      obtain rfl := ihotherwise hotherwise
      exact .refl _
  | alternative _ ihbody =>
      obtain ⟨t₁, hbody, rfl⟩ := walk_alternative h
      exact (ihbody hbody).pop_eq
  | loop _ _ ihtest ihbody =>
      obtain ⟨t₁, t₂, htest, hbody, rfl⟩ := walk_loop h
      obtain rfl := ihtest htest
      rw [(ihbody hbody).pop_eq]
      exact .refl _
  | function _ _ _ _ ihbody =>
      obtain ⟨t₁, hbody, rfl⟩ := walk_function h
      rw [((SameOutside.declareParameters _ _).trans (ihbody hbody)).pop_eq]
      exact .declare _ _
  | statement _ ih => exact ih (walk_statement h)
  | block _ _ ih => exact walkAll_induction .refl (fun _ _ _ => .trans) ih (walk_block h)
  | program _ _ ih => exact walkAll_induction .refl (fun _ _ _ => .trans) ih (walk_program h)

/-- Closing the region of a block brings back the table. -/
theorem pop_of_walk_block {kind : RegionKind} {body : Node} (hbody : WellFormed v .block body)
    (h : (t.push kind).walk body = .ok t') : t'.pop = t := by
  have hleaves : SameOutside (t.push kind) t' := leaves_of_walk hbody h
  exact hleaves.pop_eq

/-- What holds between a table and the same one with another declaration holds between the
tables before and after a node: what is opened on the way is closed again. -/
theorem walk_induction {R : SymbolTable → SymbolTable → Prop} (hrefl : ∀ t, R t t)
    (htrans : ∀ t t' t'', R t t' → R t' t'' → R t t'') (hdeclare : ∀ t s, R t (t.declare s))
    {role : Role} {n : Node} (hn : WellFormed v role n) (h : t.walk n = .ok t') : R t t' := by
  induction hn generalizing t t' with
  | number | text =>
      cases h
      exact hrefl t
  | name | parameter =>
      rw [(walk_name h).2]
      exact hrefl t
  | binary _ _ ihleft ihright =>
      obtain ⟨t₁, hleft, hright⟩ := walk_binary h
      exact htrans _ _ _ (ihleft hleft) (ihright hright)
  | assignment _ _ ihvalue => exact ihvalue (walk_assignment h).2
  | call _ _ ih => exact walkAll_induction hrefl htrans ih (walk_call h).2
  | evaluation _ ih => exact ih h
  | definition =>
      rw [walk_definition h]
      exact hdeclare t _
  | conditional _ hbody ihtest =>
      obtain ⟨t₁, t₂, htest, hwalk, rfl⟩ := walk_conditional h
      rw [pop_of_walk_block hbody hwalk]
      exact ihtest htest
  | conditionalElse _ hbody _ ihtest _ ihotherwise =>
      obtain ⟨t₁, t₂, htest, hwalk, hotherwise⟩ := walk_conditionalElse h
      rw [pop_of_walk_block hbody hwalk] at hotherwise
      exact htrans _ _ _ (ihtest htest) (ihotherwise hotherwise)
  | alternative hbody =>
      obtain ⟨t₁, hwalk, rfl⟩ := walk_alternative h
      rw [pop_of_walk_block hbody hwalk]
      exact hrefl t
  | loop _ hbody ihtest =>
      obtain ⟨t₁, t₂, htest, hwalk, rfl⟩ := walk_loop h
      rw [pop_of_walk_block hbody hwalk]
      exact ihtest htest
  | function _ _ hbody =>
      obtain ⟨t₁, hwalk, rfl⟩ := walk_function h
      have hleaves : SameOutside _ t₁ := leaves_of_walk hbody hwalk
      rw [((SameOutside.declareParameters _ _).trans hleaves).pop_eq]
      exact hdeclare t _
  | statement _ ih => exact ih (walk_statement h)
  | block _ _ ih => exact walkAll_induction hrefl htrans ih (walk_block h)
  | program _ _ ih => exact walkAll_induction hrefl htrans ih (walk_program h)

end Leaves

end ScopeLang.SymbolTable
