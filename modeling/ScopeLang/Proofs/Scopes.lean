-- SUMMARY: How the store of scopes grows during a run, and which names a scope has defined around it.
import ScopeLang.Store

/-! # Growing stores

Evaluation only adds to a store: scopes keep their parents and their names, and
new scopes come after the old ones. `Store.Extends` says so. A name that is
defined around a scope therefore stays defined around it, and looking it up
never finds nothing.
-/

namespace ScopeLang.Store

/-- Whether some scope from `env` outwards binds the name. -/
def defines (st : Store) (env : ScopeId) (name : String) : Bool :=
  (st.chain env).any (st.binds · name)

/-! ## Names along the chain -/

section Chains

variable {st : Store} {env : ScopeId} {name : String}

theorem defines_of_binds (h : st.binds env name = true) : st.defines env name = true := by
  rw [defines, chain]
  split <;> simp [h]

theorem defines_of_parent {p : ScopeId} (hp : st.parent? env = some p)
    (h : st.defines p name = true) : st.defines env name = true := by
  rw [defines, chain]
  split
  next q hq =>
    cases hp.symm.trans hq
    rw [List.any_cons, Bool.or_eq_true]
    exact .inr h
  next hnone => cases hp.symm.trans hnone

/-- A name is defined in a scope itself, or else around its parent. -/
theorem defines_cases (h : st.defines env name = true) :
    st.binds env name = true ∨ ∃ p, st.parent? env = some p ∧ st.defines p name = true := by
  rw [defines, chain] at h
  split at h
  next p hp =>
    rw [List.any_cons, Bool.or_eq_true] at h
    exact h.imp_right fun hchain => ⟨p, hp, hchain⟩
  next hnone =>
    left
    simpa using h

/-- A name that is defined is bound by its owner. -/
theorem binds_owner (h : st.defines env name = true) :
    st.binds (st.owner env name) name = true := by
  induction env using Nat.strongRecOn with
  | ind env ih =>
      rw [owner]
      by_cases hbinds : st.binds env name = true
      · rw [if_pos hbinds]
        exact hbinds
      · rw [if_neg hbinds]
        obtain hself | ⟨p, hp, hdefines⟩ := defines_cases h
        · exact absurd hself hbinds
        · split
          next q hq =>
            cases hp.symm.trans hq
            exact ih p (parent?_lt hp) hdefines
          next hnone => cases hp.symm.trans hnone

/-- Looking up a defined name finds a binding, with a value or without. -/
theorem lookup_ne_undefined (h : st.defines env name = true) :
    st.lookup env name ≠ .undefined := by
  have howner := binds_owner h
  rw [binds, NameMap.contains] at howner
  rw [lookup]
  split
  · exact nofun
  · exact nofun
  next hnone =>
    rw [hnone] at howner
    cases howner

/-- The value of a name is one that some scope binds it to. -/
theorem get?_of_lookup {v : Value} (h : st.lookup env name = .assigned v) :
    (st.bindings (st.owner env name)).get? name = some (some v) := by
  rw [lookup] at h
  split at h
  next w hw =>
    cases h
    exact hw
  · cases h
  · cases h

end Chains

/-! ## Growth -/

/-- The second store has every scope of the first one, with the same parent and at
least the same names. -/
structure Extends (st st' : Store) : Prop where
  size : st.scopes.size ≤ st'.scopes.size
  parent? : ∀ id < st.scopes.size, st'.parent? id = st.parent? id
  binds : ∀ id name, st.binds id name = true → st'.binds id name = true

namespace Extends

variable {st st' st'' : Store}

theorem refl (st : Store) : st.Extends st :=
  ⟨Nat.le_refl _, fun _ _ => rfl, fun _ _ h => h⟩

theorem trans (h : st.Extends st') (h' : st'.Extends st'') : st.Extends st'' where
  size := Nat.le_trans h.size h'.size
  parent? id hid := (h'.parent? id (Nat.lt_of_lt_of_le hid h.size)).trans (h.parent? id hid)
  binds id name hbinds := h'.binds id name (h.binds id name hbinds)

/-- What is defined around a scope stays defined. -/
theorem defines (h : st.Extends st') {env : ScopeId} {name : String}
    (henv : env < st.scopes.size) (hdefines : st.defines env name = true) :
    st'.defines env name = true := by
  induction env using Nat.strongRecOn with
  | ind env ih =>
      obtain hbinds | ⟨p, hp, hdefines⟩ := defines_cases hdefines
      · exact defines_of_binds (h.binds env name hbinds)
      · have hlt := parent?_lt hp
        have hp' : st'.parent? env = some p := (h.parent? env henv).trans hp
        exact defines_of_parent hp' (ih p hlt (Nat.lt_trans hlt henv) hdefines)

end Extends

/-! ## Single bindings -/

section Bindings

variable {st : Store} {id j : ScopeId} {name other : String}

theorem binds_iff : st.binds id name = true ↔ ((st.bindings id).get? name).isSome = true :=
  Iff.rfl

/-- The bindings after one of them has been put. -/
theorem get?_put (st : Store) (id j : ScopeId) (name other : String) (v : Option Value) :
    ((st.put id name v).bindings j).get? other =
      if id = j ∧ id < st.scopes.size ∧ name = other then some v
      else (st.bindings j).get? other := by
  by_cases hj : id = j
  · subst hj
    by_cases hid : id < st.scopes.size
    · rw [bindings_put_self st hid]
      by_cases hname : name = other
      · subst hname
        simp [hid]
      · rw [NameMap.get?_insert_of_ne _ _ (Ne.symm hname)]
        simp [hname]
    · simp [bindings, hid]
  · rw [bindings_put_of_ne st hj]
    simp [hj]

theorem Extends.put (st : Store) (id : ScopeId) (name : String) (v : Option Value) :
    st.Extends (st.put id name v) where
  size := by simp
  parent? j _ := parent?_put st id j name v
  binds j other h := by
    rw [binds_iff] at h ⊢
    rw [get?_put]
    split
    · rfl
    · exact h

theorem binds_put_self (h : id < st.scopes.size) (v : Option Value) :
    (st.put id name v).binds id name = true := by
  rw [binds_iff, get?_put, if_pos ⟨rfl, h, rfl⟩]
  rfl

/-! ## Cleared scopes -/

theorem size_clear (st : Store) (id : ScopeId) : (st.clear id).scopes.size = st.scopes.size :=
  Array.size_modify

theorem parent?_clear (st : Store) (id j : ScopeId) : (st.clear id).parent? j = st.parent? j := by
  unfold clear parent?
  rw [getElem?_modify]
  split
  · cases st.scopes[j]? <;> rfl
  · rfl

/-- A cleared scope binds nothing, and the others are as they were. -/
theorem get?_clear (st : Store) (id j : ScopeId) (name : String) :
    ((st.clear id).bindings j).get? name =
      if id = j then none else (st.bindings j).get? name := by
  unfold clear bindings
  rw [getElem?_modify]
  split
  · cases st.scopes[j]? <;> rfl
  · rfl

/-! ## Several bindings -/

theorem Extends.bindAll (st : Store) (id : ScopeId) (pairs : List (String × Value)) :
    st.Extends (st.bindAll id pairs) := by
  induction pairs generalizing st with
  | nil => exact .refl st
  | cons x pairs ih => exact (Extends.put st id x.1 (some x.2)).trans (ih _)

theorem size_bindAll (st : Store) (id : ScopeId) (pairs : List (String × Value)) :
    (st.bindAll id pairs).scopes.size = st.scopes.size := by
  induction pairs generalizing st with
  | nil => rfl
  | cons x pairs ih => exact (ih _).trans (size_put st id x.1 (some x.2))

/-- Every name of the list is bound. -/
theorem binds_bindAll (h : id < st.scopes.size) {pairs : List (String × Value)}
    (hname : name ∈ pairs.map Prod.fst) : (st.bindAll id pairs).binds id name = true := by
  induction pairs generalizing st with
  | nil => cases hname
  | cons x pairs ih =>
      have hsize : id < (st.put id x.1 (some x.2)).scopes.size := by simpa using h
      rw [List.map_cons, List.mem_cons] at hname
      obtain rfl | hname := hname
      · exact (Extends.bindAll _ id pairs).binds id _ (binds_put_self h _)
      · exact ih hsize hname

/-- A value that is found after several bindings was there before or is one of them. -/
theorem get?_bindAll {pairs : List (String × Value)} {v : Value}
    (h : ((st.bindAll id pairs).bindings j).get? name = some (some v)) :
    (st.bindings j).get? name = some (some v) ∨ v ∈ pairs.map Prod.snd := by
  induction pairs generalizing st with
  | nil => exact .inl h
  | cons x pairs ih =>
      obtain hput | hmem := ih h
      · change ((st.put id x.1 (some x.2)).bindings j).get? name = _ at hput
        rw [get?_put] at hput
        split at hput
        · cases hput
          exact .inr (by simp)
        · exact .inl hput
      · exact .inr (by simp [hmem])

/-- A run starts with the intrinsics bound one after another. -/
theorem initial_eq :
    initial = empty.bindAll globalId (Intrinsic.all.map fun i => (i.name, .intrinsic i)) := rfl

/-! ## New scopes and functions -/

theorem size_child (st : Store) (p : ScopeId) :
    (st.child p).2.scopes.size = st.scopes.size + 1 :=
  Array.size_push _

theorem bindings_child (st : Store) (p j : ScopeId) :
    (st.child p).2.bindings j = st.bindings j := by
  simp only [child, bindings, Array.getElem?_push]
  split
  next hj =>
    subst hj
    simp
  next => rfl

theorem parent?_child_of_lt {p : ScopeId} (h : j < st.scopes.size) :
    (st.child p).2.parent? j = st.parent? j := by
  simp [child, Store.parent?, Array.getElem?_push, Nat.ne_of_lt h]

/-- The parent of a new scope is the scope that it was created in. -/
theorem parent?_child {p : ScopeId} (h : p < st.scopes.size) :
    (st.child p).2.parent? st.scopes.size = some p := by
  simp [child, Store.parent?, h]

theorem Extends.child (st : Store) (p : ScopeId) : st.Extends (st.child p).2 where
  size := by simp [Store.child]
  parent? j h := parent?_child_of_lt h
  binds j name h := by
    rw [binds_iff, bindings_child]
    exact h

/-- What is defined around a scope is defined around a new scope inside it. -/
theorem defines_child {p : ScopeId} (hp : p < st.scopes.size) (h : st.defines p name = true) :
    (st.child p).2.defines st.scopes.size name = true :=
  defines_of_parent (parent?_child hp) ((Extends.child st p).defines hp h)

theorem size_close (st : Store) (home : ScopeId) (spelling : String) (parameters : List String)
    (body : Node) : (st.close home spelling parameters body).2.scopes.size = st.scopes.size :=
  Array.size_modify

theorem bindings_close (st : Store) (home : ScopeId) (spelling : String)
    (parameters : List String) (body : Node) (j : ScopeId) :
    (st.close home spelling parameters body).2.bindings j = st.bindings j := by
  simp only [close, bindings, getElem?_modify]
  split
  · cases st.scopes[j]? <;> rfl
  · rfl

theorem Extends.close (st : Store) (home : ScopeId) (spelling : String)
    (parameters : List String) (body : Node) :
    st.Extends (st.close home spelling parameters body).2 where
  size := by simp [Store.close, modify]
  parent? j _ := by
    simp only [Store.close, Store.parent?, getElem?_modify]
    split
    · cases st.scopes[j]? <;> rfl
    · rfl
  binds j name h := by
    rw [binds_iff, bindings_close]
    exact h

end Bindings

end ScopeLang.Store
