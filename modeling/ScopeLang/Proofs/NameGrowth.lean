-- SUMMARY: Which scopes get new names when a node is evaluated, and where these names come from.
import ScopeLang.Proofs.Escorts
import ScopeLang.Proofs.FaultPlaces
import ScopeLang.Proofs.ScopeMirrors

/-! # Where new names come from

Evaluating a node in a scope takes no name from any scope. Of the scopes that are
there before, it gives new names to two at most: to the scope itself, unless the
node is an expression, a conditional, an alternative or a loop, and to the global
scope. A name that is new in the global scope was declared by a definition or a
function evaluated in that very scope, or assigned to where no scope defined it.

All this rests on chains of scopes ending in the global one. They do, because a
scope is created inside of one that is older than it, and this is so because
functions remember scopes that are there.
-/

namespace ScopeLang

/-! ## Sound stores -/

/-- Every scope but the global one has a parent, and every function has a home. -/
structure Store.Sound (st : Store) : Prop where
  global : Store.globalId < st.scopes.size
  rooted : ∀ id < st.scopes.size, st.parent? id = none → id = Store.globalId
  homes : ∀ id name f, (st.bindings id).get? name = some (some (.function f)) →
    f.home < st.scopes.size

namespace Store

variable {st : Store}

theorem Sound.child (h : st.Sound) {p : ScopeId} (hp : p < st.scopes.size) :
    (st.child p).2.Sound where
  global := by
    rw [size_child]
    exact Nat.lt_succ_of_lt h.global
  rooted id hid hnone := by
    rw [size_child] at hid
    rcases Nat.lt_succ_iff_lt_or_eq.1 hid with hid | rfl
    · rw [parent?_child_of_lt hid] at hnone
      exact h.rooted id hid hnone
    · rw [parent?_child hp] at hnone
      cases hnone
  homes id name f hget := by
    rw [bindings_child] at hget
    rw [size_child]
    exact Nat.lt_succ_of_lt (h.homes id name f hget)

theorem Sound.put (h : st.Sound) {id : ScopeId} {name : String} {v? : Option Value}
    (hv : ∀ f, v? = some (.function f) → f.home < st.scopes.size) : (st.put id name v?).Sound where
  global := by
    rw [size_put]
    exact h.global
  rooted j hj hnone := by
    rw [size_put] at hj
    rw [parent?_put] at hnone
    exact h.rooted j hj hnone
  homes j other f hget := by
    rw [size_put]
    rw [get?_put] at hget
    split at hget
    · exact hv f (Option.some.inj hget)
    · exact h.homes j other f hget

theorem Sound.clear (h : st.Sound) (id : ScopeId) : (st.clear id).Sound where
  global := by
    rw [size_clear]
    exact h.global
  rooted j hj hnone := by
    rw [size_clear] at hj
    rw [parent?_clear] at hnone
    exact h.rooted j hj hnone
  homes j name f hget := by
    rw [size_clear]
    rw [get?_clear] at hget
    split at hget
    · cases hget
    · exact h.homes j name f hget

theorem sound_initial : Store.initial.Sound := by
  constructor
  · decide
  · intro id hid _
    have hsize : Store.initial.scopes.size = 1 := by decide
    exact Nat.lt_one_iff.1 (hsize ▸ hid)
  · intro id name f hget
    rw [initial_eq] at hget
    rcases get?_bindAll hget with hempty | hmem
    · cases id <;> cases hempty
    · simp [Intrinsic.all] at hmem

/-- The owner of a name binds it, or lies outermost. -/
theorem binds_or_outermost_owner (st : Store) (id : ScopeId) (name : String) :
    st.binds (st.owner id name) name = true ∨ st.parent? (st.owner id name) = none := by
  induction id using Nat.strongRecOn with
  | ind id ih =>
      by_cases hbinds : st.binds id name = true
      · rw [owner_of_binds hbinds]
        exact .inl hbinds
      · cases hp : st.parent? id with
        | none =>
            rw [owner_of_outermost hp]
            exact .inr hp
        | some p =>
            rw [owner_of_parent hbinds hp]
            exact ih p (parent?_lt hp)

end Store

/-! ## Evaluation keeps stores sound -/

/-- A run without escorts, as long as scope `h` is not there: all scopes that it comes to are
older than `h`, and so are the homes of functions. When `h` is created, it has a parent. -/
def housing (h : ScopeId) : Escort Empty where
  watch := nofun
  admits _ env := env < h
  home id := id < h
  fresh id := id < h
  kept st := st.scopes.size ≤ h
  abreast _ _ := True
  cutOff _ _ m := h < m.store.scopes.size ∧ m.store.parent? h ≠ none

theorem housing_newScope (h p : ScopeId) :
    (housing h).Relates (p < h) (· < h) (fun _ => Exec.newScope p) (Exec.newScope p) where
  onward m := .ofStore (.child m.store p)
  ends hp ms m hm := by
    have hkept : m.store.scopes.size ≤ h := hm.kept
    rcases Nat.lt_or_eq_of_le hkept with hlt | heq
    · have hchild : (housing h).kept (m.store.child p).2 := by
        change (m.store.child p).2.scopes.size ≤ h
        rw [Store.size_child]
        exact hlt
      refine .returns m.store.scopes.size ms { m with store := (m.store.child p).2 } nofun rfl
        ⟨nofun, ?_, hchild, trivial⟩ hlt
      intro id name v hget
      rw [Store.bindings_child] at hget
      exact hm.values id name v hget
    · -- This is scope `h` itself.
      refine .cut nofun ms nofun ⟨?_, ?_⟩
      · change h < (m.store.child p).2.scopes.size
        rw [Store.size_child, heq]
        exact Nat.lt_succ_self h
      · change (m.store.child p).2.parent? h ≠ none
        rw [← heq] at hp ⊢
        rw [Store.parent?_child hp]
        nofun

theorem lawful_housing (h : ScopeId) : (housing h).Lawful where
  later hcut honward := by
    refine ⟨Nat.lt_of_lt_of_le hcut.1 honward.store.size, ?_⟩
    rw [honward.store.parent? h hcut.1]
    exact hcut.2
  inside hn _ _ := hn
  argument hn _ _ _ := hn
  home hn := hn
  fresh hid _ := hid
  newScope {p} := housing_newScope h p
  bindAll {st id} pairs hkept _ := Nat.le_trans (Nat.le_of_eq (st.size_bindAll id pairs)) hkept
  close {st} home name parameters body hkept :=
    Nat.le_trans (Nat.le_of_eq (st.size_close home name parameters body)) hkept
  declare {_ env} name v? _ m _ _ hm :=
    .silent nofun (Nat.le_trans (Nat.le_of_eq (m.store.size_put env name v?)) hm.kept)
  assign _ name v _ m hm :=
    .silent nofun (Nat.le_trans (Nat.le_of_eq (m.store.size_put _ name (some v))) hm.kept)
  write _ _ := .write_of_silent (fun _ _ _ => nofun) fun _ _ _ => ⟨nofun, trivial⟩
  readInteger _ := .readInteger_of_alike fun _ _ _ => ⟨nofun, trivial⟩

section Evaluation

variable {m : Machine} {n : Node} {env : ScopeId}

/-- A scope that is not there yet will have a parent, and if it is never created, then no
function belongs to it. -/
theorem Store.Sound.housing (hm : m.store.Sound) (henv : env < m.store.scopes.size) (fuel : Nat)
    {h : ScopeId} (hsize : m.store.scopes.size ≤ h) :
    let m' := (eval fuel n env).final m
    (m'.store.scopes.size ≤ h ∧ ∀ id name f,
      (m'.store.bindings id).get? name = some (some (.function f)) → f.home < h) ∨
    (h < m'.store.scopes.size ∧ m'.store.parent? h ≠ none) := by
  intro m'
  have htogether : (ScopeLang.housing h).Together nofun m := by
    refine ⟨nofun, fun id name v hget => ?_, hsize, trivial⟩
    cases v with
    | function f => exact Nat.lt_of_lt_of_le (hm.homes id name f hget) hsize
    | int | str | intrinsic | unit => trivial
  have hends := ((lawful_housing h).eval fuel n env).ends (Nat.lt_of_lt_of_le henv hsize) nofun m
    htogether
  rcases hends.final with ⟨_, together⟩ | ⟨_, _, _, hcut⟩
  · exact .inl ⟨together.kept, fun id name f hget => together.values id name _ hget⟩
  · exact .inr hcut

/-- Evaluation goes onward, whether it returns or stops. -/
theorem onward_eval (fuel : Nat) (n : Node) (env : ScopeId) : (eval fuel n env).Onward :=
  ((lawful_housing 0).eval fuel n env).onward

/-- Evaluation in a scope that is there leaves a sound store. -/
theorem Store.Sound.eval (hm : m.store.Sound) (henv : env < m.store.scopes.size) (fuel : Nat) :
    ((ScopeLang.eval fuel n env).final m).store.Sound := by
  have hextends := (onward_eval fuel n env m).store
  constructor
  · exact Nat.lt_of_lt_of_le hm.global hextends.size
  · intro id hid hnone
    rcases Nat.lt_or_ge id m.store.scopes.size with hold | hnew
    · rw [hextends.parent? id hold] at hnone
      exact hm.rooted id hold hnone
    · rcases hm.housing henv fuel hnew with ⟨hsize, -⟩ | ⟨-, hparent⟩
      · exact absurd (Nat.lt_of_lt_of_le hid hsize) (Nat.lt_irrefl _)
      · exact absurd hnone hparent
  · intro id name f hget
    rcases hm.housing henv fuel hextends.size with ⟨-, hhomes⟩ | ⟨hlt, -⟩
    · exact hhomes id name f hget
    · exact absurd hlt (Nat.lt_irrefl _)

end Evaluation

/-! ## Scopes that get new names -/

/-- Whether evaluating a node of the tag gives no names to its scope, unless that is the global
one. -/
def Tag.keepsNames : Tag → Bool
  | .conditional | .alternative | .loop => true
  | tag => tag.isExpression

theorem Tag.keepsNames_of_isExpression {tag : Tag} (h : tag.isExpression = true) :
    tag.keepsNames = true := by
  unfold keepsNames
  split
  · rfl
  · rfl
  · rfl
  · exact h

/-- What such a node evaluates in its own scope gives no names to it either. -/
theorem Tag.Takes.keepsNames {tag c : Tag} {tags : List Tag} {i : Nat} (h : tag.Takes tags)
    (htag : tag.keepsNames = true) (hi : tag.sharesScope i = true) (hc : tags[i]? = some c) :
    c.keepsNames = true := by
  cases tag with
  | binary op =>
      rcases h with ⟨left, right, rfl, hleft, hright⟩
      match i, hc with
      | 0, rfl => exact keepsNames_of_isExpression hleft
      | 1, rfl => exact keepsNames_of_isExpression hright
  | assignment =>
      rcases h with ⟨value, rfl, hvalue⟩
      match i, hi, hc with
      | 1, _, rfl => exact keepsNames_of_isExpression hvalue
  | conditional =>
      rcases h with ⟨test, rfl | rfl, htest⟩
      · match i, hi, hc with
        | 0, _, rfl => exact keepsNames_of_isExpression htest
        | 2, _, hc => cases hc
      · match i, hi, hc with
        | 0, _, rfl => exact keepsNames_of_isExpression htest
        | 2, _, rfl => rfl
  | loop =>
      rcases h with ⟨test, rfl, htest⟩
      match i, hi, hc with
      | 0, _, rfl => exact keepsNames_of_isExpression htest
  | number | text | name | call | alternative => cases hi
  | statement | block | program | definition | function | arguments | parameters => cases htag

namespace Node.Conforms

variable {n c : Node}

theorem keepsNames (h : n.Conforms) (htag : n.tag.keepsNames = true) {i : Nat}
    (hi : n.tag.sharesScope i = true) (hc : n.children[i]? = some c) :
    c.tag.keepsNames = true := by
  apply h.takes.keepsNames htag hi
  rw [List.getElem?_map, hc]
  rfl

/-- The arguments of a call are expressions. -/
theorem argument (h : n.Conforms) (htag : n.tag = .call) {list : Node}
    (hlist : n.children[0]? = some list) (hc : c ∈ list.children) :
    c.Conforms ∧ c.tag.isExpression = true := by
  have hlistConforms : list.Conforms := h.child (List.mem_of_getElem? hlist)
  have huse : n.tag.childUse? 0 = some .arguments := by
    rw [htag]
    rfl
  rcases h.takes.child huse with ⟨tag, hget, -, harguments⟩
  rw [List.getElem?_map, hlist] at hget
  have hlistTag : list.tag = .arguments := (Option.some.inj hget).trans (harguments rfl)
  have htakes := hlistConforms.takes
  rw [hlistTag] at htakes
  exact ⟨hlistConforms.child hc, htakes c.tag (List.mem_map_of_mem hc)⟩

end Node.Conforms

/-- A run without escorts that has started with a store. Only free scopes and the global one
get new names. -/
def growing (st : Store) (free : ScopeId → Prop) : Escort Empty where
  watch := nofun
  admits n env := free env ∨ n.Conforms ∧ n.tag.keepsNames = true
  home _ := True
  fresh := free
  kept st' := st.Extends st' ∧ ∀ id name, ¬ free id → id ≠ Store.globalId →
    st'.binds id name = true → st.binds id name = true
  abreast _ _ := True
  cutOff _ _ _ := False

section Growing

variable {st st' : Store} {free : ScopeId → Prop}

theorem growing_put (h : (growing st free).kept st') {id : ScopeId} {name : String}
    {v? : Option Value}
    (hid : free id ∨ id = Store.globalId ∨ st'.binds id name = true) :
    (growing st free).kept (st'.put id name v?) := by
  refine ⟨h.1.trans (.put st' id name v?), fun j other hj hglobal hbinds => ?_⟩
  rcases Store.binds_put hbinds with ⟨rfl, rfl⟩ | hold
  · rcases hid with hfree | heq | hbinds
    · exact absurd hfree hj
    · exact absurd heq hglobal
    · exact h.2 id name hj hglobal hbinds
  · exact h.2 j other hj hglobal hold

theorem growing_assign (hst : st.Sound) (hnew : ∀ id, st.scopes.size ≤ id → free id)
    (h : (growing st free).kept st') (env : ScopeId) (name : String) (v : Value) :
    (growing st free).kept (st'.assign env name v) := by
  apply growing_put h
  -- A scope without the name and without a parent is new, or it is the global one.
  rcases Store.binds_or_outermost_owner st' env name with hbinds | hnone
  · exact .inr (.inr hbinds)
  · rcases Nat.lt_or_ge (st'.owner env name) st.scopes.size with hold | hge
    · rw [h.1.parent? _ hold] at hnone
      exact .inr (.inl (hst.rooted _ hold hnone))
    · exact .inl (hnew _ hge)

theorem lawful_growing (hst : st.Sound) (hnew : ∀ id, st.scopes.size ≤ id → free id) :
    (growing st free).Lawful where
  later hcut _ := hcut
  inside hn hi hc := by
    rcases hn with hfree | ⟨hconforms, htag⟩
    · exact .inl hfree
    · exact .inr ⟨hconforms.child (List.mem_of_getElem? hc), hconforms.keepsNames htag hi hc⟩
  argument hn htag hlist ha := by
    rcases hn with hfree | ⟨hconforms, -⟩
    · exact .inl hfree
    · rcases hconforms.argument htag hlist ha with ⟨hargument, hexpression⟩
      exact .inr ⟨hargument, Tag.keepsNames_of_isExpression hexpression⟩
  home _ := trivial
  fresh hid _ := .inl hid
  newScope {p} := .newScope fun st' hkept => by
    refine ⟨⟨hkept.1.trans (.child st' p), fun id name hid hglobal hbinds => ?_⟩,
      hnew _ hkept.1.size⟩
    rw [Store.binds_child] at hbinds
    exact hkept.2 id name hid hglobal hbinds
  bindAll {st' id} pairs hkept hid := by
    refine ⟨hkept.1.trans (.bindAll st' id pairs), fun j name hj hglobal hbinds => ?_⟩
    have hne : id ≠ j := fun heq => hj (heq ▸ hid)
    exact hkept.2 j name hj hglobal (Store.binds_bindAll_of_ne hne hbinds)
  close {st'} home name parameters body hkept := by
    refine ⟨hkept.1.trans (.close st' home name parameters body), ?_⟩
    intro j other hj hglobal hbinds
    rw [Store.binds_close] at hbinds
    exact hkept.2 j other hj hglobal hbinds
  declare {n env} name v? {ms m} hn htag hm := by
    apply Escort.Announced.silent nofun
    apply growing_put hm.kept
    rcases hn with hfree | ⟨-, hkeeps⟩
    · exact .inl hfree
    · rcases htag with htag | htag
      · rw [htag] at hkeeps
        cases hkeeps
      · rw [htag] at hkeeps
        cases hkeeps
  assign env name v {ms m} hm := .silent nofun (growing_assign hst hnew hm.kept env name v)
  write _ _ := .write_of_silent (fun _ _ _ => nofun) fun _ _ _ => ⟨nofun, trivial⟩
  readInteger _ := .readInteger_of_alike fun _ _ _ => ⟨nofun, trivial⟩

end Growing

/-- Evaluation gives no names to a scope that was there before, other than its own and the
global one; and none to its own either if the node is of a tag that keeps names. -/
theorem Store.Sound.binds_eval {m : Machine} {n : Node} {env id : ScopeId} {name : String}
    (hm : m.store.Sound) (hn : n.Conforms) (fuel : Nat) (hid : id < m.store.scopes.size)
    (hglobal : id ≠ Store.globalId) (hown : id ≠ env ∨ n.tag.keepsNames = true)
    (hbinds : ((ScopeLang.eval fuel n env).final m).store.binds id name = true) :
    m.store.binds id name = true := by
  let free : ScopeId → Prop := fun j =>
    m.store.scopes.size ≤ j ∨ j = env ∧ ¬ n.tag.keepsNames = true
  have hadmits : (growing m.store free).admits n env := by
    by_cases htag : n.tag.keepsNames = true
    · exact .inr ⟨hn, htag⟩
    · exact .inl (.inr ⟨rfl, htag⟩)
  have hvalues : ∀ v, (growing m.store free).Holds v := Escort.holds_of_home _ fun _ => trivial
  have htogether : (growing m.store free).Together nofun m :=
    ⟨nofun, fun _ _ v _ => hvalues v, ⟨.refl _, fun _ _ _ _ h => h⟩, trivial⟩
  have hlawful : (growing m.store free).Lawful := lawful_growing hm fun _ hj => .inl hj
  have hends := (hlawful.eval fuel n env).ends hadmits nofun m htogether
  rcases hends.final with ⟨_, together⟩ | ⟨_, _, _, hcut⟩
  · apply together.kept.2 id name ?_ hglobal hbinds
    rintro (hge | ⟨rfl, htag⟩)
    · exact absurd hid (Nat.not_lt.2 hge)
    · rcases hown with hne | hkeeps
      · exact hne rfl
      · exact htag hkeeps
  · exact hcut.elim

/-! ## Names that are new in the global scope -/

/-- Whether the effect is to declare the name in the global scope, or to assign to it where no
scope defines it. -/
def Effect.introduces (name : String) : Effect → Machine → Bool
  | .declare scope declared, _ => scope == Store.globalId && declared == name
  | .assign scope target, m => target == name && !m.store.defines scope name
  | .write _ _, _ => false

/-- The run is escorted by runs that stop before the name is introduced. As long as they do not,
the global scope is without the name. -/
def introducing (name : String) : Escort (Effect → Stop) where
  watch stop := .before (Effect.introduces name) stop
  admits _ _ := True
  home _ := True
  fresh id := id ≠ Store.globalId
  kept st := Store.globalId < st.scopes.size ∧ ¬ st.binds Store.globalId name = true
  abreast cs c := ∀ i, cs i = c
  cutOff es ms _ := ∃ e m, Effect.introduces name e m = true ∧
    ∀ stop, es stop = stop e ∧ ms stop = m

section Introducing

variable {name : String} {ms : (Effect → Stop) → Machine} {m : Machine}

/-- Either the effect introduces the name, and all escorts stop; or it does not, and then the
global scope must be without the name afterwards. -/
theorem introducing_announced (hm : (introducing name).Together ms m) {e : Effect} {st : Store}
    (hkept : ¬ e.introduces name m = true → (introducing name).kept st) :
    (introducing name).Announced e ms m st := by
  by_cases hmarked : e.introduces name m = true
  · refine .stopped (fun stop => stop e) (fun stop => ?_) ⟨e, m, hmarked, fun stop => ?_⟩
    · rw [hm.machine_eq (hm.consoles stop)]
      exact Watch.before_of_marked hmarked
    · exact ⟨rfl, hm.machine_eq (hm.consoles stop)⟩
  · refine .silent (fun stop => ?_) (hkept hmarked)
    rw [hm.machine_eq (hm.consoles stop)]
    exact Watch.before_of_not_marked hmarked

theorem introducing_put {st : Store} (h : (introducing name).kept st) {id : ScopeId}
    {other : String} {v? : Option Value} (hid : ¬ (id = Store.globalId ∧ other = name)) :
    (introducing name).kept (st.put id other v?) := by
  refine ⟨(Store.size_put st id other v?).symm ▸ h.1, fun hbinds => ?_⟩
  rcases Store.binds_put hbinds with hsame | hold
  · exact hid hsame
  · exact h.2 hold

theorem lawful_introducing (name : String) : (introducing name).Lawful where
  later hcut _ := hcut
  inside _ _ _ := trivial
  argument _ _ _ _ := trivial
  home _ := trivial
  fresh _ _ := trivial
  newScope {p} := .newScope fun st hkept => by
    refine ⟨⟨?_, fun hbinds => ?_⟩, Nat.ne_of_gt hkept.1⟩
    · rw [Store.size_child]
      exact Nat.lt_succ_of_lt hkept.1
    · rw [Store.binds_child] at hbinds
      exact hkept.2 hbinds
  bindAll {st id} pairs hkept hid := by
    refine ⟨(Store.size_bindAll st id pairs).symm ▸ hkept.1, fun hbinds => ?_⟩
    exact hkept.2 (Store.binds_bindAll_of_ne hid hbinds)
  close {st} home spelling parameters body hkept := by
    refine ⟨(Store.size_close st home spelling parameters body).symm ▸ hkept.1, fun hbinds => ?_⟩
    rw [Store.binds_close] at hbinds
    exact hkept.2 hbinds
  declare {n env} other v? {ms m} _ _ hm := by
    apply introducing_announced hm
    intro hmarked
    apply introducing_put hm.kept
    rintro ⟨rfl, rfl⟩
    apply hmarked
    simp [Effect.introduces]
  assign env other v {ms m} hm := by
    apply introducing_announced hm
    intro hmarked
    apply introducing_put hm.kept
    -- The owner is the global scope only if that binds the name, or if nothing defines it.
    rintro ⟨howner, rfl⟩
    have hdefines : m.store.defines env other = true := by
      simpa [Effect.introduces] using hmarked
    have hbinds := Store.binds_owner hdefines
    rw [howner] at hbinds
    exact hm.kept.2 hbinds
  write text span := by
    apply Escort.Relates.write_of_silent (fun _ _ _ _ => rfl)
    intro cs c hcs
    exact ⟨fun i => congrArg (fun c : Console => (c.write text).1) (hcs i),
      fun i => congrArg (fun c : Console => (c.write text).2) (hcs i)⟩
  readInteger span := by
    apply Escort.Relates.readInteger_of_alike
    intro cs c hcs
    exact ⟨fun i => congrArg (fun c : Console => c.readWord.1) (hcs i),
      fun i => congrArg (fun c : Console => c.readWord.2) (hcs i)⟩

end Introducing

/-- A name that is new in the global scope has been introduced on the way. -/
theorem Store.Sound.comesFirstTo_eval {m : Machine} {name : String} (hm : m.store.Sound)
    (fuel : Nat) (n : Node) (env : ScopeId) (hold : ¬ m.store.binds Store.globalId name = true)
    (hnew : ((ScopeLang.eval fuel n env).final m).store.binds Store.globalId name = true) :
    ∃ e m', ComesFirstTo (Effect.introduces name) fuel n env m e m' := by
  have hvalues : ∀ v, (introducing name).Holds v := Escort.holds_of_home _ fun _ => trivial
  have htogether : (introducing name).Together (fun _ => m) m :=
    ⟨fun _ => rfl, fun _ _ v _ => hvalues v, ⟨hm.global, hold⟩, fun _ => rfl⟩
  have hends := ((lawful_introducing name).eval fuel n env).ends trivial (fun _ => m) m htogether
  rcases hends.final with ⟨_, together⟩ | ⟨es, ms, hescorts, e, m', hmarked, hcut⟩
  · exact absurd hnew together.kept.2
  · refine ⟨e, m', hmarked, fun stop => ?_⟩
    rw [← (hcut stop).1, ← (hcut stop).2]
    exact hescorts stop

/-! ## Interpreters -/

/-- The machines that an interpreter of a tree can have. It starts with the intrinsics. Any node
of the tree may be evaluated in any scope, with whatever outcome; and whoever uses the
interpreter may create scopes, bind names, clear scopes and replace the console. -/
inductive Reachable (root : Node) : Machine → Prop
  | start (console : Console) : Reachable root (.initial console)
  | evaluated {m : Machine} {n : Node} {env : ScopeId} (before : Reachable root m)
      (node : root.Contains n) (scope : env < m.store.scopes.size) (fuel : Nat) :
      Reachable root ((eval fuel n env).final m)
  | nested {m : Machine} {p : ScopeId} (before : Reachable root m)
      (scope : p < m.store.scopes.size) :
      Reachable root { m with store := (m.store.child p).2 }
  | bound {m : Machine} (before : Reachable root m) (id : ScopeId) (name : String)
      (v? : Option Value)
      (home : ∀ f, v? = some (.function f) → f.home < m.store.scopes.size) :
      Reachable root { m with store := m.store.put id name v? }
  | cleared {m : Machine} (before : Reachable root m) (id : ScopeId) :
      Reachable root { m with store := m.store.clear id }
  | redirected {m : Machine} (before : Reachable root m) (console : Console) :
      Reachable root { m with console := console }

theorem Reachable.sound {root : Node} {m : Machine} (h : Reachable root m) : m.store.Sound := by
  induction h with
  | start console => exact Store.sound_initial
  | evaluated before node scope fuel ih => exact ih.eval scope fuel
  | nested before scope ih => exact ih.child scope
  | bound before id name v? home ih => exact ih.put home
  | cleared before id ih => exact ih.clear id
  | redirected before console ih => exact ih

/-- What evaluating a node in a scope may do to the scopes that are there. -/
structure NamesStay (fuel : Nat) (n : Node) (env : ScopeId) (m m' : Machine) : Prop where
  parents : ∀ id < m.store.scopes.size, m'.store.parent? id = m.store.parent? id
  kept : ∀ id < m.store.scopes.size, ∀ name, m.store.binds id name = true →
    m'.store.binds id name = true
  others : ∀ id < m.store.scopes.size, id ≠ env → id ≠ Store.globalId → ∀ name,
    m'.store.binds id name = true → m.store.binds id name = true
  own : n.tag.keepsNames = true → env ≠ Store.globalId → ∀ name,
    m'.store.binds env name = true → m.store.binds env name = true
  global : ∀ name, m'.store.binds Store.globalId name = true →
    ¬ m.store.binds Store.globalId name = true →
    ∃ e m₁, ComesFirstTo (Effect.introduces name) fuel n env m e m₁

/-- Names of a block do not leak. Whatever tokens the parser accepts: however the interpreter of
the tree has been used, and whichever of its nodes is evaluated in whichever scope, with
whatever outcome, no scope changes its parent or loses a name. Only the scope itself and the
global one may get names, the former not from expressions, conditionals, alternatives and
loops. What is new in the global scope was declared there, or assigned to without having been
defined. -/
theorem block_names_stay {tokens : List Token} {t : Node} (h : parseTokens tokens = .ok t)
    {m : Machine} (hm : Reachable t m) {p : Node} (hp : t.Contains p) {env : ScopeId}
    (henv : env < m.store.scopes.size) (fuel : Nat) :
    NamesStay fuel p env m ((eval fuel p env).final m) := by
  have hsound := hm.sound
  have hextends := (onward_eval fuel p env m).store
  have hconforms : p.Conforms := (conforms_of_parseTokens h).contained hp
  constructor
  · exact hextends.parent?
  · exact fun id _ name => hextends.binds id name
  · intro id hid hne hglobal name hbinds
    exact hsound.binds_eval hconforms fuel hid hglobal (.inl hne) hbinds
  · intro htag hglobal name hbinds
    exact hsound.binds_eval hconforms fuel henv hglobal (.inr htag) hbinds
  · intro name hnew hold
    exact hsound.comesFirstTo_eval fuel p env hold hnew

/-- A conditional in a scope inside of the global one. Its block declares a name and assigns to
another that nothing defines: only the latter is new in a scope that was there before, namely
in the global one. -/
theorem block_names_stay_conditional :
    let tokens : List Token := [⟨.keyword .conditional, ⟨1, 1⟩⟩, ⟨.mark .openParen, ⟨1, 4⟩⟩,
      ⟨.number "1", ⟨1, 5⟩⟩, ⟨.mark .closeParen, ⟨1, 6⟩⟩, ⟨.mark .openBrace, ⟨1, 8⟩⟩,
      ⟨.keyword .var, ⟨1, 10⟩⟩, ⟨.name "x", ⟨1, 14⟩⟩, ⟨.mark .semicolon, ⟨1, 15⟩⟩,
      ⟨.name "y", ⟨1, 17⟩⟩, ⟨.mark .assign, ⟨1, 19⟩⟩, ⟨.number "2", ⟨1, 21⟩⟩,
      ⟨.mark .semicolon, ⟨1, 22⟩⟩, ⟨.mark .closeBrace, ⟨1, 24⟩⟩]
    let m : Machine := ⟨(Store.initial.child Store.globalId).2, {}⟩
    ∃ t p, parseTokens tokens = .ok t ∧ Reachable t m ∧ t.Contains p ∧ p.tag = .conditional ∧
      let m' := (eval 10 p 1).final m
      NamesStay 10 p 1 m m' ∧ m'.store.binds 2 "x" = true ∧
        m'.store.binds Store.globalId "x" = false ∧ m'.store.binds 1 "y" = false ∧
        ∃ e m₁, ComesFirstTo (Effect.introduces "y") 10 p 1 m e m₁ := by
  intro tokens m
  let target := Node.leaf .name "y" ⟨1, 17⟩
  let block := Node.inner .block ⟨1, 8⟩
    [.inner .statement ⟨1, 10⟩ [.inner .definition ⟨1, 10⟩ [.leaf .name "x" ⟨1, 14⟩]],
      .inner .statement ⟨1, 17⟩ [.inner .assignment ⟨1, 19⟩ [target, .leaf .number "2" ⟨1, 21⟩]]]
  let p := Node.inner .conditional ⟨1, 1⟩ [.leaf .number "1" ⟨1, 5⟩, block]
  let t := Node.inner .program ⟨1, 1⟩ [.inner .statement ⟨1, 1⟩ [p]]
  have hparse : parseTokens tokens = .ok t := rfl
  have hm : Reachable t m := .nested (.start {}) (by decide)
  have hp : t.Contains p := ⟨[0, 0], rfl⟩
  have henv : 1 < m.store.scopes.size := by decide
  have hstay := block_names_stay hparse hm hp henv 10
  have hy : ((eval 10 p 1).final m).store.binds Store.globalId "y" = true := by decide +kernel
  refine ⟨t, p, hparse, hm, hp, rfl, hstay, ?_, ?_, ?_, hstay.global "y" hy (by decide)⟩
  · decide +kernel
  · decide +kernel
  · decide +kernel

end ScopeLang
