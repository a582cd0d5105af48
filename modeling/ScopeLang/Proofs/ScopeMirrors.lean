-- SUMMARY: How the scopes of a run follow the regions of its program, and who may own a name.
import ScopeLang.Proofs.NameSafety
import ScopeLang.Proofs.Uses

/-! # Scopes and their regions

Every scope of a run is created for a region of the program, and the chain of a
scope follows the regions around it, one for one. `Store.Mirrors` says what they
have in common. As long as no function comes between, a scope binds exactly the
names that its region declares so far. The scopes around the home of a function
may have gone on since the function was resolved: they bind at least what their
regions declared then, and at most what these declare in the end. What that is
for each scope is the plan of the run.

It follows how deep the owner of a name lies: at the depth at which resolution
found the name, or at that of a rival.
-/

namespace ScopeLang

/-! ## Declared names -/

namespace SymbolTable

variable {t t' : SymbolTable} {name : String}

theorem regions_eq (t : SymbolTable) : t.regions = t.current :: t.regions.tail := by
  obtain ⟨inner, global, counter⟩ := t
  cases inner <;> rfl

theorem declares_declare {r : Region} {s : Symbol} :
    (r.declare s).declares name = true ↔ name = s.name ∨ r.declares name = true :=
  isSome_get?_declare

/-- A declaration goes to the innermost region, up to its number. -/
theorem exists_regions_declare (t : SymbolTable) (s : Symbol) :
    ∃ s', s'.name = s.name ∧ (t.declare s).current = t.current.declare s' ∧
      (t.declare s).regions = t.current.declare s' :: t.regions.tail := by
  obtain ⟨inner, global, counter⟩ := t
  cases inner with
  | nil => exact ⟨{ s with order := counter }, rfl, rfl, rfl⟩
  | cons r outer => exact ⟨s, rfl, rfl, rfl⟩

theorem declares_current_declare {s : Symbol} :
    (t.declare s).current.declares name = true ↔
      name = s.name ∨ t.current.declares name = true := by
  obtain ⟨s', hname, hcurrent, -⟩ := t.exists_regions_declare s
  rw [hcurrent, declares_declare, hname]

theorem declares_current_declareParameters {parameters : List Node} :
    (t.declareParameters parameters).current.declares name = true ↔
      name ∈ parameters.map Node.text ∨ t.current.declares name = true := by
  unfold declareParameters
  induction parameters generalizing t with
  | nil => simp
  | cons p parameters ih =>
      rw [List.foldl_cons, ih, declares_current_declare, List.map_cons, List.mem_cons]
      constructor
      · rintro (h | h | h)
        · exact .inl (.inr h)
        · exact .inl (.inl h)
        · exact .inr h
      · rintro ((h | h) | h)
        · exact .inr (.inl h)
        · exact .inl h
        · exact .inr (.inr h)

/-- Resolving a node takes no declaration back. -/
theorem declares_of_walk {v : Vocabulary} {role : Role} {n : Node} (hn : WellFormed v role n)
    (h : t.walk n = .ok t') :
    t.current.declares name = true → t'.current.declares name = true :=
  walk_induction (R := fun t t' => t.current.declares name = true → t'.current.declares name = true)
    (fun _ => id) (fun _ _ _ h h' hname => h' (h hname))
    (fun _ _ hname => declares_current_declare.2 (.inr hname)) hn h

theorem declares_of_walkAll {v : Vocabulary} {role : Role} {ns : List Node}
    (hns : ∀ n ∈ ns, WellFormed v role n) (h : t.walkAll ns = .ok t') :
    t.current.declares name = true → t'.current.declares name = true :=
  walkAll_induction (fun _ => id) (fun _ _ _ h h' hname => h' (h hname))
    (fun n hn _ _ hwalk => declares_of_walk (hns n hn) hwalk) h

end SymbolTable

/-! ## Chains -/

namespace Store

variable {st : Store} {id p : ScopeId} {name : String}

theorem chain_of_parent (h : st.parent? id = some p) : st.chain id = id :: st.chain p := by
  rw [chain]
  split
  next q hq =>
    cases h.symm.trans hq
    rfl
  next hnone => cases h.symm.trans hnone

theorem chain_of_outermost (h : st.parent? id = none) : st.chain id = [id] := by
  rw [chain]
  split
  next q hq => cases h.symm.trans hq
  next => rfl

theorem length_chain (st : Store) (id : ScopeId) : (st.chain id).length = st.depth id + 1 := by
  have hlength : 0 < (st.chain id).length := by
    rw [chain]
    split <;> simp
  unfold depth
  omega

theorem depth_of_parent (h : st.parent? id = some p) : st.depth id = st.depth p + 1 := by
  rw [← length_chain, depth, chain_of_parent h]
  rfl

theorem depth_of_outermost (h : st.parent? id = none) : st.depth id = 0 := by
  rw [depth, chain_of_outermost h]
  rfl

theorem owner_of_binds (h : st.binds id name = true) : st.owner id name = id := by
  rw [owner, if_pos h]

theorem owner_of_parent (h : ¬ st.binds id name = true) (hp : st.parent? id = some p) :
    st.owner id name = st.owner p name := by
  rw [owner, if_neg h]
  split
  next q hq =>
    cases hp.symm.trans hq
    rfl
  next hnone => cases hp.symm.trans hnone

theorem owner_of_outermost (h : st.parent? id = none) : st.owner id name = id := by
  rw [owner]
  split
  · rfl
  · split
    next q hq => cases h.symm.trans hq
    next => rfl

/-- Counted from the outermost scope, the owner of a name is where its depth says. -/
theorem reverse_chain_owner (st : Store) (id : ScopeId) (name : String) :
    (st.chain id).reverse[st.depth (st.owner id name)]? = some (st.owner id name) := by
  induction id using Nat.strongRecOn with
  | ind id ih =>
      cases hp : st.parent? id with
      | none =>
          rw [owner_of_outermost hp, depth_of_outermost hp, chain_of_outermost hp]
          rfl
      | some p =>
          rw [chain_of_parent hp, List.reverse_cons]
          by_cases hbinds : st.binds id name = true
          · rw [owner_of_binds hbinds, depth_of_parent hp, ← length_chain, ← List.length_reverse]
            exact List.getElem?_concat_length
          · rw [owner_of_parent hbinds hp]
            have hinside := ih p (parent?_lt hp)
            rw [List.getElem?_append_left (List.getElem?_eq_some_iff.1 hinside).1]
            exact hinside

end Store

/-! ## Mirrors -/

/-- What a scope and the region that it was created for have in common. The plan has the
region as it is when it is closed. -/
structure Store.Holds (st : Store) (plan : List Region) (id : ScopeId) (live : Bool)
    (r c : Region) : Prop where
  inside : id < st.scopes.size
  planned : plan[id]? = some c
  declared : ∀ name, r.declares name = true → st.binds id name = true
  current : live = true → ∀ name, st.binds id name = true → r.declares name = true

/-- The chain of a scope follows some regions, innermost first. Regions are `live` from the
inside out up to the first region of a function. -/
inductive Store.Mirrors (st : Store) (plan : List Region) :
    ScopeId → Bool → List Region → List Region → Prop
  | outermost {id : ScopeId} {live : Bool} {r c : Region} (scope : st.Holds plan id live r c)
      (parent : st.parent? id = none) : Mirrors st plan id live [r] [c]
  | inner {id p : ScopeId} {live : Bool} {r c : Region} {outer closing : List Region}
      (scope : st.Holds plan id live r c) (parent : st.parent? id = some p)
      (around : Mirrors st plan p (live && r.kind != .function) outer closing) :
      Mirrors st plan id live (r :: outer) (c :: closing)

/-- No scope binds more than the plan has for it. -/
structure Store.Planned (st : Store) (plan : List Region) : Prop where
  length : plan.length = st.scopes.size
  bounded : ∀ id c name, plan[id]? = some c → st.binds id name = true → c.declares name = true

namespace Store.Mirrors

variable {st st' : Store} {plan plan' : List Region} {id : ScopeId} {live : Bool}
  {regions closing : List Region}

theorem inside (h : st.Mirrors plan id live regions closing) : id < st.scopes.size := by
  cases h with
  | outermost scope _ | inner scope _ _ => exact scope.inside

theorem depth (h : st.Mirrors plan id live regions closing) :
    regions.length = st.depth id + 1 := by
  induction h with
  | outermost _ parent => rw [Store.depth_of_outermost parent, List.length_singleton]
  | inner _ parent _ ih => rw [Store.depth_of_parent parent, List.length_cons, ih]

/-- The owner of a name lies where the name was resolved, or where a rival lies. -/
theorem owner (h : st.Mirrors plan id live regions closing) (hplan : st.Planned plan)
    {name : String} {d : Nat} (hname : Region.depthOf? name regions = some d) :
    st.binds (st.owner id name) name = true ∧ (st.depth (st.owner id name) = d ∨
      st.depth (st.owner id name) ∈ Region.rivals name live regions closing) := by
  induction h with
  | @outermost id live r c scope parent =>
      unfold Region.depthOf? at hname
      split at hname
      next hdeclares =>
        cases hname
        have hbinds := scope.declared name hdeclares
        rw [Store.owner_of_binds hbinds]
        exact ⟨hbinds, .inl (Store.depth_of_outermost parent)⟩
      next => cases hname
  | @inner id p live r c outer closing scope parent around ih =>
      have hdepth : st.depth id = outer.length := by
        rw [Store.depth_of_parent parent, around.depth]
      unfold Region.depthOf? at hname
      unfold Region.rivals
      split at hname
      next hdeclares =>
        cases hname
        have hbinds := scope.declared name hdeclares
        rw [Store.owner_of_binds hbinds]
        exact ⟨hbinds, .inl hdepth⟩
      next hdeclares =>
        rw [if_neg hdeclares]
        by_cases hbinds : st.binds id name = true
        · -- The name has been bound since, so the region is not live, and a rival.
          have hlive : live = false := by
            cases live with
            | false => rfl
            | true => exact absurd (scope.current rfl name hbinds) hdeclares
          have hclosing := hplan.bounded id c name scope.planned hbinds
          rw [Store.owner_of_binds hbinds, hlive, hclosing, hdepth]
          exact ⟨hbinds, .inr (List.mem_append_left _ (List.mem_singleton_self _))⟩
        · rw [Store.owner_of_parent hbinds parent]
          obtain ⟨howner, hd | hrival⟩ := ih hname
          · exact ⟨howner, .inl hd⟩
          · exact ⟨howner, .inr (List.mem_append_right _ hrival)⟩

/-- A chain keeps following its regions as the store grows. If they are live, its scopes
must not get new names. -/
theorem mono (h : st.Mirrors plan id live regions closing) (hext : st.Extends st')
    (hplan : plan <+: plan')
    (hstill : live = true → ∀ j ≤ id, ∀ name, st'.binds j name = true → st.binds j name = true) :
    st'.Mirrors plan' id live regions closing := by
  have hholds : ∀ {id live r c}, st.Holds plan id live r c →
      (live = true → ∀ name, st'.binds id name = true → st.binds id name = true) →
      st'.Holds plan' id live r c := by
    intro id live r c h hstill
    refine ⟨Nat.lt_of_lt_of_le h.inside hext.size, ?_, ?_, ?_⟩
    · obtain ⟨more, rfl⟩ := hplan
      rw [List.getElem?_append_left (List.getElem?_eq_some_iff.1 h.planned).1]
      exact h.planned
    · exact fun name hname => hext.binds id name (h.declared name hname)
    · exact fun hlive name hname => h.current hlive name (hstill hlive name hname)
  induction h with
  | @outermost id live r c scope parent =>
      refine .outermost (hholds scope fun hlive => hstill hlive id (Nat.le_refl _)) ?_
      rw [hext.parent? id scope.inside]
      exact parent
  | @inner id p live r c outer closing scope parent around ih =>
      refine .inner (hholds scope fun hlive => hstill hlive id (Nat.le_refl _)) ?_ (ih ?_)
      · rw [hext.parent? id scope.inside]
        exact parent
      · intro hlive j hj
        have hlt := Store.parent?_lt parent
        exact hstill (Bool.and_eq_true_iff.1 hlive).1 j (Nat.le_trans hj (Nat.le_of_lt hlt))

/-- The innermost region as it is when it is closed is the one that the plan has. -/
theorem planned (h : st.Mirrors plan id live regions closing) : plan[id]? = closing.head? := by
  cases h with
  | outermost scope _ | inner scope _ _ => exact scope.planned

/-- What is said of regions that are not live holds of live ones, too. -/
theorem frozen (h : st.Mirrors plan id live regions closing) :
    st.Mirrors plan id false regions closing := by
  have hholds : ∀ {id live r c}, st.Holds plan id live r c → st.Holds plan id false r c :=
    fun h => ⟨h.inside, h.planned, h.declared, nofun⟩
  induction h with
  | outermost scope parent => exact .outermost (hholds scope) parent
  | inner scope parent _ ih => exact .inner (hholds scope) parent ih

end Store.Mirrors

/-! ## New scopes and bindings -/

namespace Store

variable {st : Store} {plan : List Region} {id j p : ScopeId} {name other : String}

theorem binds_child : (st.child p).2.binds j name = st.binds j name := by
  unfold binds
  rw [bindings_child]

theorem binds_close {spelling : String} {parameters : List String} {body : Node} :
    (st.close id spelling parameters body).2.binds j name = st.binds j name := by
  unfold binds
  rw [bindings_close]

theorem not_binds_of_size_le (h : st.scopes.size ≤ j) : ¬ st.binds j name = true := by
  unfold binds bindings
  rw [Array.getElem?_eq_none h]
  nofun

theorem binds_put {v? : Option Value} (h : (st.put id name v?).binds j other = true) :
    (id = j ∧ name = other) ∨ st.binds j other = true := by
  rw [binds_iff, get?_put] at h
  split at h
  next hsame => exact .inl ⟨hsame.1, hsame.2.2⟩
  next => exact .inr h

/-- Putting a binding in the place of another one makes no new names. -/
theorem binds_of_put {v? : Option Value} (hname : st.binds id name = true)
    (h : (st.put id name v?).binds j other = true) : st.binds j other = true := by
  obtain ⟨rfl, rfl⟩ | h := binds_put h
  · exact hname
  · exact h

theorem binds_bindAll_of_ne {pairs : List (String × Value)} (hne : id ≠ j)
    (h : (st.bindAll id pairs).binds j name = true) : st.binds j name = true := by
  induction pairs generalizing st with
  | nil => exact h
  | cons x pairs ih =>
      obtain ⟨heq, -⟩ | h := binds_put (ih h)
      · exact absurd heq hne
      · exact h

theorem Planned.child (h : st.Planned plan) (p : ScopeId) (c : Region) :
    (st.child p).2.Planned (plan ++ [c]) where
  length := by simp [Store.child, h.length]
  bounded j c' name hc hname := by
    rw [binds_child] at hname
    have hj : j < plan.length := by
      by_contra hle
      exact not_binds_of_size_le (h.length ▸ Nat.le_of_not_lt hle) hname
    rw [List.getElem?_append_left hj] at hc
    exact h.bounded j c' name hc hname

theorem Planned.put (h : st.Planned plan) (v? : Option Value)
    (hname : ∀ c, plan[id]? = some c → c.declares name = true) :
    (st.put id name v?).Planned plan where
  length := by rw [size_put, h.length]
  bounded j c other hc hother := by
    obtain ⟨rfl, rfl⟩ | hother := binds_put hother
    · exact hname c hc
    · exact h.bounded j c other hc hother

theorem Planned.bindAll (h : st.Planned plan) {pairs : List (String × Value)}
    (hnames : ∀ name ∈ pairs.map Prod.fst, ∀ c, plan[id]? = some c → c.declares name = true) :
    (st.bindAll id pairs).Planned plan := by
  induction pairs generalizing st with
  | nil => exact h
  | cons x pairs ih =>
      obtain ⟨hfirst, hrest⟩ := List.forall_mem_cons.1 hnames
      exact ih (h.put (some x.2) hfirst) hrest

theorem Planned.close (h : st.Planned plan) (home : ScopeId) (spelling : String)
    (parameters : List String) (body : Node) :
    (st.close home spelling parameters body).2.Planned plan where
  length := by simp [Store.close, modify, h.length]
  bounded j c name hc hname := by
    rw [binds_close] at hname
    exact h.bounded j c name hc hname

namespace Mirrors

variable {t : SymbolTable} {regions closing : List Region}

/-- A new scope follows a new region, around which lie those that its parent follows. -/
theorem child (kind : RegionKind) (h : st.Mirrors plan p (kind != .function) regions closing)
    (hplan : st.Planned plan) (c : Region) :
    (st.child p).2.Mirrors (plan ++ [c]) st.scopes.size true (⟨kind, .empty⟩ :: regions)
      (c :: closing) := by
  refine .inner ⟨?_, ?_, nofun, ?_⟩ (parent?_child h.inside) ?_
  · simp [Store.child]
  · simp [← hplan.length]
  · intro _ name hname
    rw [binds_child] at hname
    exact absurd hname (not_binds_of_size_le (Nat.le_refl _))
  · refine h.mono (.child st p) (List.prefix_append _ _) fun _ j _ name hname => ?_
    rw [binds_child] at hname
    exact hname

/-- A declaration is followed by binding its name. -/
theorem declare (h : st.Mirrors plan id true t.regions closing) (s : Symbol) (v? : Option Value) :
    (st.put id s.name v?).Mirrors plan id true (t.declare s).regions closing := by
  obtain ⟨s', hname, -, hregions⟩ := t.exists_regions_declare s
  have hholds : ∀ {c}, st.Holds plan id true t.current c →
      (st.put id s.name v?).Holds plan id true (t.current.declare s') c := by
    intro c h
    refine ⟨by simpa using h.inside, h.planned, ?_, ?_⟩
    · intro name hdeclares
      obtain rfl | hdeclares := SymbolTable.declares_declare.1 hdeclares
      · rw [hname]
        exact binds_put_self h.inside v?
      · exact (Extends.put st id s.name v?).binds id name (h.declared name hdeclares)
    · intro _ name hbinds
      apply SymbolTable.declares_declare.2
      obtain ⟨-, rfl⟩ | hbinds := binds_put hbinds
      · exact .inl hname.symm
      · exact .inr (h.current rfl name hbinds)
  rw [t.regions_eq] at h
  rw [hregions]
  generalize t.regions.tail = outer at h
  cases h with
  | outermost scope parent =>
      refine .outermost (hholds scope) ?_
      rw [parent?_put]
      exact parent
  | @inner _ p _ _ _ _ _ scope parent around =>
      refine .inner (hholds scope) ?_ (around.mono (.put _ _ _ _) List.prefix_rfl ?_)
      · rw [parent?_put]
        exact parent
      · intro _ j hj name hbinds
        obtain ⟨rfl, -⟩ | hbinds := binds_put hbinds
        · exact absurd (Nat.lt_of_le_of_lt hj (parent?_lt parent)) (Nat.lt_irrefl _)
        · exact hbinds

/-- Parameters are followed by binding them to the arguments. -/
theorem declareParameters {parameters : List Node} {values : List Value}
    (h : st.Mirrors plan id true t.regions closing) (hlength : parameters.length = values.length) :
    (st.bindAll id ((parameters.map Node.text).zip values)).Mirrors plan id true
      (t.declareParameters parameters).regions closing := by
  induction parameters generalizing st t values with
  | nil => exact h
  | cons parameter parameters ih =>
      cases values with
      | nil => cases hlength
      | cons v values =>
          exact ih (h.declare ⟨parameter.text, .parameter, parameter.span, 0⟩ (some v))
            (Nat.succ.inj hlength)

end Mirrors

end Store

/-! ## Functions and what they follow -/

/-- The home of the function follows regions in which its body resolves, and the uses of
names in the body are good. -/
def Closure.Charted (good : Use → Prop) (st : Store) (plan : List Region) (f : Closure) : Prop :=
  WellFormed .unrestricted .block f.body ∧
    ∃ (t t' : SymbolTable) (closing : List Region) (parameters : List Node),
      parameters.map Node.text = f.parameters ∧
      st.Mirrors plan f.home false t.regions closing ∧
      ((t.push .function).declareParameters parameters).walk f.body = .ok t' ∧
      ∀ u ∈ ((t.push .function).declareParameters parameters).uses (t'.current :: closing) f.body,
        good u

/-- The value is no function, or one whose home follows its regions. -/
def Value.Charted (good : Use → Prop) (st : Store) (plan : List Region) : Value → Prop
  | .function f => f.Charted good st plan
  | _ => True

/-- The scopes keep to the plan, and so do the functions that are bound in them. -/
structure Store.Charted (good : Use → Prop) (st : Store) (plan : List Region) : Prop where
  planned : st.Planned plan
  values : ∀ id name v, (st.bindings id).get? name = some (some v) → v.Charted good st plan

section Charted

variable {good : Use → Prop} {st st' : Store} {plan plan' : List Region}

theorem Closure.Charted.mono {f : Closure} (h : f.Charted good st plan) (hext : st.Extends st')
    (hplan : plan <+: plan') : f.Charted good st' plan' := by
  obtain ⟨hbody, t, t', closing, parameters, hparameters, hmirrors, hwalk, hgood⟩ := h
  exact ⟨hbody, t, t', closing, parameters, hparameters, hmirrors.mono hext hplan nofun, hwalk,
    hgood⟩

theorem Value.Charted.mono {v : Value} (h : v.Charted good st plan) (hext : st.Extends st')
    (hplan : plan <+: plan') : v.Charted good st' plan' := by
  cases v with
  | function f => exact Closure.Charted.mono h hext hplan
  | int | str | intrinsic | unit => trivial

namespace Store.Charted

theorem child (h : st.Charted good plan) (p : ScopeId) (c : Region) :
    (st.child p).2.Charted good (plan ++ [c]) where
  planned := h.planned.child p c
  values id name v hget := by
    rw [Store.bindings_child] at hget
    exact (h.values id name v hget).mono (.child st p) (List.prefix_append _ _)

theorem put (h : st.Charted good plan) {id : ScopeId} {name : String} {v? : Option Value}
    (hname : ∀ c, plan[id]? = some c → c.declares name = true)
    (hv : ∀ v, v? = some v → v.Charted good (st.put id name v?) plan) :
    (st.put id name v?).Charted good plan where
  planned := h.planned.put v? hname
  values j other v hget := by
    rw [Store.get?_put] at hget
    split at hget
    · exact hv v (Option.some.inj hget)
    · exact (h.values j other v hget).mono (.put st id name v?) List.prefix_rfl

theorem bindAll (h : st.Charted good plan) {id : ScopeId} {pairs : List (String × Value)}
    (hnames : ∀ name ∈ pairs.map Prod.fst, ∀ c, plan[id]? = some c → c.declares name = true)
    (hvalues : ∀ v ∈ pairs.map Prod.snd, v.Charted good st plan) :
    (st.bindAll id pairs).Charted good plan where
  planned := h.planned.bindAll hnames
  values j name v hget := by
    refine Value.Charted.mono ?_ (.bindAll st id pairs) List.prefix_rfl
    obtain hold | hnew := Store.get?_bindAll hget
    · exact h.values j name v hold
    · exact hvalues v hnew

theorem close (h : st.Charted good plan) (home : ScopeId) (spelling : String)
    (parameters : List String) (body : Node) :
    (st.close home spelling parameters body).2.Charted good plan where
  planned := h.planned.close home spelling parameters body
  values id name v hget := by
    rw [Store.bindings_close] at hget
    exact (h.values id name v hget).mono (.close st home spelling parameters body) List.prefix_rfl

end Store.Charted

end Charted

end ScopeLang
