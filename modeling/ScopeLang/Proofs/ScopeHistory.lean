-- SUMMARY: The scopes of a store after any history of operations on it, as the history tells them.
import Mathlib.Data.List.Chain
import ScopeLang.Proofs.NameGrowth

/-! # Histories of scopes

A store starts with the global scope alone. Scopes are then created inside others,
and names are defined, bound, assigned and cleared in them, in any order. What a
name stands for in a scope can be told from the history of these operations
without a store: going back in time, the first operation that touches the name in
a scope says what it is bound to there, and a scope that is cleared has no older
bindings. The name is owned by the nearest scope around that binds it, and by the
global scope if there is none.

An assignment changes what the name stands for wherever it has the same owner,
and nothing else.
-/

namespace ScopeLang.Store

/-! ## Operations -/

/-- An operation on the scopes of a store. -/
inductive Operation
  | child (parent : ScopeId)
  | define (scope : ScopeId) (name : String)
  | bind (scope : ScopeId) (name : String) (v : Value)
  | assign (scope : ScopeId) (name : String) (v : Value)
  | clear (scope : ScopeId)

namespace Operation

/-- The scope that the operation is applied to. -/
def scope : Operation → ScopeId
  | .child s | .define s _ | .bind s _ _ | .assign s _ _ | .clear s => s

def apply (st : Store) : Operation → Store
  | .child parent => (st.child parent).2
  | .define s name => st.define s name
  | .bind s name v => st.bind s name v
  | .assign s name v => st.assign s name v
  | .clear s => st.clear s

end Operation

/-- The operations that a store has seen, the newest first. -/
abbrev History := List Operation

/-- The first scope of a chain that binds a name, or else the global one. -/
def nearest (chain : List ScopeId) (binds : ScopeId → Bool) : ScopeId :=
  (chain.find? binds).getD globalId

namespace History

/-- The store after some operations. -/
def replay : History → Store
  | [] => .empty
  | op :: older => op.apply (replay older)

/-- How many scopes there are. -/
def size : History → Nat
  | [] => 1
  | .child _ :: older => size older + 1
  | _ :: older => size older

/-- Every operation is applied to a scope that is there. -/
def Valid : History → Prop
  | [] => True
  | op :: older => op.scope < size older ∧ Valid older

instance decidableValid : (h : History) → Decidable h.Valid
  | [] => inferInstanceAs (Decidable True)
  | op :: older =>
    have := decidableValid older
    inferInstanceAs (Decidable (op.scope < size older ∧ Valid older))

/-- The scopes from a scope outwards. -/
def chain : History → ScopeId → List ScopeId
  | [], s => [s]
  | .child parent :: older, s => if s = size older then s :: chain older parent else chain older s
  | _ :: older, s => chain older s

/-- What a scope itself binds a name to, with a value or without. The latest operation that
touches the name there decides. -/
def binding? : History → ScopeId → String → Option (Option Value)
  | [], _, _ => none
  | .child _ :: older, s, name => binding? older s name
  | .define t m :: older, s, name => if t = s ∧ m = name then some none else binding? older s name
  | .bind t m v :: older, s, name =>
    if t = s ∧ m = name then some (some v) else binding? older s name
  | .assign t m v :: older, s, name =>
    -- The assignment lands in the scope that owned its target at the time.
    if nearest (chain older t) (fun u => (binding? older u m).isSome) = s ∧ m = name then
      some (some v)
    else
      binding? older s name
  | .clear t :: older, s, name => if t = s then none else binding? older s name

/-- The scope that owns a name. -/
def owner (h : History) (s : ScopeId) (name : String) : ScopeId :=
  nearest (h.chain s) fun t => (h.binding? t name).isSome

/-- What a name stands for. -/
def lookup (h : History) (s : ScopeId) (name : String) : Lookup :=
  match h.binding? (h.owner s name) name with
  | some (some v) => .assigned v
  | some none => .unassigned
  | none => .undefined

end History

/-! ## Chains and owners -/

section Chains

variable {st st' : Store} {s : ScopeId} {name : String}

theorem exists_chain_eq_cons (st : Store) (s : ScopeId) : ∃ outer, st.chain s = s :: outer := by
  cases hp : st.parent? s with
  | none => exact ⟨[], chain_of_outermost hp⟩
  | some p => exact ⟨st.chain p, chain_of_parent hp⟩

/-- The chain of a scope depends on the parents of the scopes up to it. -/
theorem chain_congr (h : ∀ j, j ≤ s → st'.parent? j = st.parent? j) :
    st'.chain s = st.chain s := by
  induction s using Nat.strongRecOn with
  | ind s ih =>
      have hs := h s (Nat.le_refl s)
      cases hp : st.parent? s with
      | none => rw [chain_of_outermost hp, chain_of_outermost (hs.trans hp)]
      | some p =>
          have hlt := parent?_lt hp
          rw [chain_of_parent hp, chain_of_parent (hs.trans hp)]
          rw [ih p hlt fun j hj => h j (Nat.le_trans hj (Nat.le_of_lt hlt))]

/-- A chain follows the parents of its scopes. -/
theorem isChain_chain (st : Store) (s : ScopeId) :
    (st.chain s).IsChain fun a b => st.scopes[a]?.bind Scope.parent = some b := by
  induction s using Nat.strongRecOn with
  | ind s ih =>
      cases hp : st.parent? s with
      | none =>
          rw [chain_of_outermost hp]
          exact .singleton s
      | some p =>
          have hlinked := ih p (parent?_lt hp)
          obtain ⟨outer, houter⟩ := exists_chain_eq_cons st p
          rw [chain_of_parent hp]
          rw [houter] at hlinked ⊢
          exact .cons_cons (Option.filter_eq_some_iff.1 hp).1 hlinked

/-- A name is owned by the first scope of the chain that binds it, or else by the last one. -/
theorem owner_eq_getD {last : ScopeId} (hlast : (st.chain s).getLast? = some last)
    (name : String) : st.owner s name = ((st.chain s).find? (st.binds · name)).getD last := by
  induction s using Nat.strongRecOn with
  | ind s ih =>
      by_cases hbinds : st.binds s name = true
      · obtain ⟨outer, houter⟩ := exists_chain_eq_cons st s
        rw [owner_of_binds hbinds, houter]
        simp [hbinds]
      · cases hp : st.parent? s with
        | none =>
            rw [chain_of_outermost hp] at hlast ⊢
            cases hlast
            rw [owner_of_outermost hp]
            simp [hbinds]
        | some p =>
            obtain ⟨outer, houter⟩ := exists_chain_eq_cons st p
            rw [chain_of_parent hp] at hlast ⊢
            rw [houter, List.getLast?_cons_cons, ← houter] at hlast
            rw [owner_of_parent hbinds hp, ih p (parent?_lt hp) hlast]
            simp [hbinds]

end Chains

/-! ## Assignments -/

section Assign

variable {st : Store} {e s : ScopeId} {name other : String} {v : Value}

theorem owner_le (st : Store) (s : ScopeId) (name : String) : st.owner s name ≤ s := by
  induction s using Nat.strongRecOn with
  | ind s ih =>
      by_cases hbinds : st.binds s name = true
      · rw [owner_of_binds hbinds]
      · cases hp : st.parent? s with
        | none => rw [owner_of_outermost hp]
        | some p =>
            rw [owner_of_parent hbinds hp]
            exact Nat.le_trans (ih p (parent?_lt hp)) (Nat.le_of_lt (parent?_lt hp))

/-- An assignment adds a name only to a scope that owns it already. -/
theorem owner_assign (st : Store) (e s : ScopeId) (name other : String) (v : Value) :
    (st.assign e name v).owner s other = st.owner s other := by
  have hgrows : st.Extends (st.assign e name v) := .put st (st.owner e name) name (some v)
  have hparent : (st.assign e name v).parent? = st.parent? := by
    funext j
    exact parent?_put st (st.owner e name) j name (some v)
  induction s using Nat.strongRecOn with
  | ind s ih =>
      by_cases hbinds : st.binds s other = true
      · rw [owner_of_binds hbinds, owner_of_binds (hgrows.binds s other hbinds)]
      · by_cases hnew : (st.assign e name v).binds s other = true
        · -- The name is new here, so this is where the search for its owner ended.
          obtain ⟨rfl, rfl⟩ | hold := binds_put hnew
          · obtain howner | houtermost := binds_or_outermost_owner st e name
            · exact absurd howner hbinds
            · rw [owner_of_binds hnew, owner_of_outermost houtermost]
          · exact absurd hold hbinds
        · cases hp : st.parent? s with
          | none => rw [owner_of_outermost hp, owner_of_outermost (hparent ▸ hp)]
          | some p =>
              rw [owner_of_parent hbinds hp, owner_of_parent hnew (hparent ▸ hp)]
              exact ih p (parent?_lt hp)

/-- The value is seen wherever the name has the same owner. -/
theorem lookup_assign_of_owner_eq (he : e < st.scopes.size)
    (h : st.owner s name = st.owner e name) :
    (st.assign e name v).lookup s name = .assigned v := by
  have hget : ((st.assign e name v).bindings (st.owner e name)).get? name = some (some v) := by
    unfold assign bind
    rw [get?_put, if_pos ⟨rfl, Nat.lt_of_le_of_lt (owner_le st e name) he, rfl⟩]
  unfold lookup
  rw [owner_assign, h, hget]

/-- Other names, and other owners of the name, are left alone. -/
theorem lookup_assign_of_ne (h : ¬ (other = name ∧ st.owner s name = st.owner e name)) :
    (st.assign e name v).lookup s other = st.lookup s other := by
  have hget : ((st.assign e name v).bindings (st.owner s other)).get? other =
      (st.bindings (st.owner s other)).get? other := by
    unfold assign bind
    rw [get?_put]
    apply if_neg
    rintro ⟨howner, -, rfl⟩
    exact h ⟨rfl, howner.symm⟩
  unfold lookup
  rw [owner_assign, hget]

end Assign

/-! ## Stores and their histories -/

/-- The store is what the history says. -/
structure Follows (st : Store) (h : History) : Prop where
  size : st.scopes.size = h.size
  chain : ∀ s < h.size, st.chain s = h.chain s
  outermost : st.scopes[globalId]?.bind Scope.parent = none
  binding? : ∀ s name, (st.bindings s).get? name = h.binding? s name

/-- In a history of operations on scopes that are there, every chain ends in the global scope. -/
theorem History.getLast?_chain {h : History} (hvalid : h.Valid) {s : ScopeId}
    (hs : s < h.size) : (h.chain s).getLast? = some globalId := by
  induction h generalizing s with
  | nil =>
      cases Nat.lt_one_iff.1 hs
      rfl
  | cons op older ih =>
      obtain ⟨hscope, hvalid⟩ := hvalid
      cases op with
      | child parent =>
          unfold History.chain
          split
          next =>
            have hlast : (History.chain older parent).getLast? = some globalId := ih hvalid hscope
            rw [List.getLast?_cons, hlast]
            rfl
          next hold => exact ih hvalid ((Nat.lt_succ_iff_lt_or_eq.1 hs).resolve_right hold)
      | define | bind | assign | clear => exact ih hvalid hs

namespace Follows

variable {st : Store} {h : History} {s t : ScopeId} {name : String} {v? : Option Value}

theorem empty : Follows .empty [] where
  size := rfl
  chain s hs := by
    cases Nat.lt_one_iff.1 hs
    exact chain_of_outermost rfl
  outermost := rfl
  binding? s name := by
    cases s <;> rfl

/-- Names are owned as the history says. -/
theorem owner (hst : Follows st h) (hvalid : h.Valid) (hs : s < h.size) (name : String) :
    st.owner s name = h.owner s name := by
  have hlast : (st.chain s).getLast? = some globalId := by
    rw [hst.chain s hs]
    exact h.getLast?_chain hvalid hs
  rw [owner_eq_getD hlast, hst.chain s hs]
  unfold History.owner nearest binds NameMap.contains
  simp only [hst.binding?]

theorem child (hst : Follows st h) (hp : t < h.size) :
    Follows (st.child t).2 (.child t :: h) where
  size := by
    rw [size_child, hst.size]
    rfl
  chain s hs := by
    have hchain : ∀ j < st.scopes.size, (st.child t).2.chain j = st.chain j := by
      intro j hj
      exact chain_congr fun k hk => parent?_child_of_lt (Nat.lt_of_le_of_lt hk hj)
    rw [← hst.size] at hp
    unfold History.chain
    split
    next hnew =>
      rw [hnew, ← hst.size, chain_of_parent (parent?_child hp), hchain t hp]
      rw [hst.chain t (hst.size ▸ hp)]
    next hold =>
      have hs' : s < h.size := (Nat.lt_succ_iff_lt_or_eq.1 hs).resolve_right hold
      rw [hchain s (hst.size ▸ hs'), hst.chain s hs']
  outermost := by
    have hglobal : globalId < st.scopes.size :=
      Nat.lt_of_le_of_lt (Nat.zero_le t) (hst.size ▸ hp)
    unfold Store.child
    rw [Array.getElem?_push_lt hglobal, ← Array.getElem?_eq_getElem hglobal]
    exact hst.outermost
  binding? s name := by
    rw [bindings_child]
    exact hst.binding? s name

/-- A change of one scope that leaves its parent alone. -/
theorem modify (hst : Follows st h) {h' : History} {f : Scope → Scope}
    (hf : ∀ scope, (f scope).parent = scope.parent) (hsize : h'.size = h.size)
    (hchain : h'.chain = h.chain)
    (hbinding : ∀ s name, ((st.modify t f).bindings s).get? name = h'.binding? s name) :
    Follows (st.modify t f) h' := by
  have hparent : ∀ j : ScopeId, (st.modify t f).scopes[j]?.bind Scope.parent =
      st.scopes[j]?.bind Scope.parent := by
    intro j
    rw [getElem?_modify]
    split
    · cases st.scopes[j]? with
      | none => rfl
      | some scope => exact hf scope
    · rfl
  constructor
  · rw [hsize, ← hst.size]
    exact Array.size_modify
  · intro s hs
    rw [hsize] at hs
    rw [hchain, ← hst.chain s hs]
    apply chain_congr
    intro j _
    unfold parent?
    rw [hparent]
  · rw [hparent]
    exact hst.outermost
  · exact hbinding

/-- A binding that is put in a scope. -/
theorem put (hst : Follows st h) {h' : History} (ht : t < h.size) (hsize : h'.size = h.size)
    (hchain : h'.chain = h.chain)
    (hbinding : ∀ s m, h'.binding? s m =
      if t = s ∧ name = m then some v? else h.binding? s m) :
    Follows (st.put t name v?) h' := by
  refine hst.modify ?_ hsize hchain ?_
  · exact fun _ => rfl
  intro s m
  change ((st.put t name v?).bindings s).get? m = _
  rw [get?_put, hbinding, hst.binding?, hst.size]
  simp only [ht, true_and]

/-- An operation on a scope that is there adds to the history. -/
theorem apply (hst : Follows st h) (hvalid : h.Valid) (op : Operation) (hop : op.scope < h.size) :
    Follows (op.apply st) (op :: h) := by
  cases op with
  | child parent => exact hst.child hop
  | define s name => exact hst.put hop rfl rfl fun _ _ => rfl
  | bind s name v => exact hst.put hop rfl rfl fun _ _ => rfl
  | assign s name v =>
      have howner : st.owner s name = h.owner s name := hst.owner hvalid hop name
      have hinside : st.owner s name < h.size := Nat.lt_of_le_of_lt (owner_le st s name) hop
      refine hst.put hinside rfl rfl ?_
      intro u m
      rw [howner]
      rfl
  | clear s =>
      refine hst.modify ?_ rfl rfl ?_
      · exact fun _ => rfl
      intro u m
      change ((st.clear s).bindings u).get? m = _
      rw [get?_clear, hst.binding?]
      rfl

end Follows

/-- A store follows the history that it is replayed from. -/
theorem History.follows_replay {h : History} (hvalid : h.Valid) : Follows h.replay h := by
  induction h with
  | nil => exact .empty
  | cons op older ih =>
      obtain ⟨hscope, hvalid⟩ := hvalid
      exact (ih hvalid).apply hvalid op hscope

/-- Parents lead from the scope to the global one, over the scopes of a list. -/
structure LeadsToGlobal (st : Store) (s : ScopeId) (chain : List ScopeId) : Prop where
  starts : chain.head? = some s
  linked : chain.IsChain fun a b => st.scopes[a]?.bind Scope.parent = some b
  ends : chain.getLast? = some globalId
  outermost : st.scopes[globalId]?.bind Scope.parent = none

theorem Follows.leadsToGlobal {st : Store} {h : History} (hst : Follows st h) (hvalid : h.Valid)
    {s : ScopeId} (hs : s < h.size) : st.LeadsToGlobal s (h.chain s) := by
  rw [← hst.chain s hs]
  constructor
  · obtain ⟨outer, houter⟩ := exists_chain_eq_cons st s
    rw [houter]
    rfl
  · exact isChain_chain st s
  · rw [hst.chain s hs]
    exact h.getLast?_chain hvalid hs
  · exact hst.outermost

theorem Follows.lookup {st : Store} {h : History} (hst : Follows st h) (hvalid : h.Valid)
    {s : ScopeId} (hs : s < h.size) (name : String) : st.lookup s name = h.lookup s name := by
  have hbinding : (st.bindings (st.owner s name)).get? name =
      h.binding? (h.owner s name) name := by
    rw [hst.owner hvalid hs, hst.binding?]
  unfold Store.lookup
  rw [hbinding]
  rfl

/-- A name is undefined where no scope of the chain binds it. -/
theorem History.lookup_eq_undefined_iff {h : History} (hvalid : h.Valid) {s : ScopeId}
    (hs : s < h.size) {name : String} :
    h.lookup s name = .undefined ↔ ∀ t ∈ h.chain s, h.binding? t name = none := by
  unfold History.lookup History.owner nearest
  cases hfind : (h.chain s).find? fun t => (h.binding? t name).isSome with
  | none =>
      have hnone : ∀ t ∈ h.chain s, h.binding? t name = none := by
        simpa using hfind
      have hglobal := List.mem_of_getLast? (h.getLast?_chain hvalid hs)
      rw [Option.getD_none, hnone globalId hglobal]
      exact ⟨fun _ => hnone, fun _ => rfl⟩
  | some t =>
      have hsome := List.find?_some hfind
      obtain ⟨v?, hv⟩ := Option.isSome_iff_exists.1 hsome
      rw [Option.getD_some, hv]
      constructor
      · intro hundefined
        cases v? <;> cases hundefined
      · intro hnone
        have ht := hnone t (List.mem_of_find?_eq_some hfind)
        cases hv.symm.trans ht

/-! ## What a history tells -/

/-- After any operations on scopes that are there, the parents of every scope lead to the global
one. A name is owned by the nearest scope that binds it, or else by the global scope, and stands
for what the latest operation on it in its owner says; it is undefined if no scope around binds
it. An assignment leaves all owners as they are. It changes what its target stands for wherever
that has the same owner, and nothing else. -/
theorem replay_follows_history (h : History) (hvalid : h.Valid) :
    h.replay.scopes.size = h.size ∧
    (∀ s < h.size, h.replay.LeadsToGlobal s (h.chain s) ∧ ∀ name,
      h.replay.owner s name = h.owner s name ∧
      h.replay.lookup s name = h.lookup s name ∧
      (h.replay.lookup s name = .undefined ↔ ∀ t ∈ h.chain s, h.binding? t name = none)) ∧
    ∀ e < h.size, ∀ name v,
      let st := h.replay
      let st' := st.assign e name v
      ∀ s < h.size,
        (∀ other, st'.owner s other = st.owner s other) ∧
        (st.owner s name = st.owner e name → st'.lookup s name = .assigned v) ∧
        ∀ other, ¬ (other = name ∧ st.owner s name = st.owner e name) →
          st'.lookup s other = st.lookup s other := by
  have hst := h.follows_replay hvalid
  refine ⟨hst.size, ?_, ?_⟩
  · intro s hs
    refine ⟨hst.leadsToGlobal hvalid hs, fun name => ⟨hst.owner hvalid hs name, ?_, ?_⟩⟩
    · exact hst.lookup hvalid hs name
    · rw [hst.lookup hvalid hs name]
      exact h.lookup_eq_undefined_iff hvalid hs
  · intro e he name v st st' s hs
    refine ⟨fun other => owner_assign st e s name other v, ?_, fun other => ?_⟩
    · exact lookup_assign_of_owner_eq (hst.size ▸ he)
    · exact lookup_assign_of_ne

/-- A name that is defined in a scope and in one inside it: clearing the inner scope brings the
outer binding back, and assigning from the inner scope then changes it. -/
theorem replay_follows_history_shadowed :
    let history : History := [.assign 1 "x" (.int 3), .clear 1, .bind 1 "x" (.int 2), .child 0,
      .define 0 "x"]
    history.Valid ∧ history.replay.owner 1 "x" = 0 ∧
      history.replay.lookup 0 "x" = .assigned (.int 3) ∧
      history.replay.lookup 1 "y" = .undefined := by
  intro history
  have hvalid : history.Valid := by decide
  obtain ⟨-, htold, -⟩ := replay_follows_history history hvalid
  obtain ⟨-, hinner⟩ := htold 1 (by decide)
  obtain ⟨-, houter⟩ := htold 0 (by decide)
  refine ⟨hvalid, ?_, ?_, ?_⟩
  · exact (hinner "x").1.trans (by decide)
  · exact (houter "x").2.1.trans (by rfl)
  · exact (hinner "y").2.1.trans (by rfl)

end ScopeLang.Store
