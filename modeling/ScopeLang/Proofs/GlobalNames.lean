-- SUMMARY: The global scope after a run has the names that resolution has for the global region.
import Mathlib.Data.List.Perm.Subperm
import ScopeLang.Proofs.Escorts
import ScopeLang.Proofs.LexicalScoping

/-! # Names of the global scope

Resolution ends with the symbols of the global region. They predict which names
the global scope has after a run. If the run returns, these are exactly the names
of the symbols, since every declaration of the program itself has been reached
and nothing else binds a name there. If it stops, some may be missing, but the
intrinsics are there from the beginning.

Both sides list each name once, for the reason that both are maps.
-/

namespace ScopeLang

/-! ## Names of maps -/

namespace NameMap

variable {α : Type} {m : NameMap α} {name : String}

theorem mem_names : name ∈ m.names ↔ m.contains name = true := by
  unfold names contains get?
  rw [List.lookup_isSome_iff, List.mem_map]
  constructor
  · rintro ⟨e, he, rfl⟩
    exact ⟨e, he, beq_self_eq_true e.1⟩
  · rintro ⟨e, he, heq⟩
    exact ⟨e, he, (eq_of_beq heq).symm⟩

theorem mem_entries_iff (h : m.names.Nodup) {value : α} :
    (name, value) ∈ m.entries ↔ m.get? name = some value := by
  simp only [get?, List.lookup_eq_some_iff]
  constructor
  · intro hmem
    rcases List.append_of_mem hmem with ⟨newer, older, hentries⟩
    refine ⟨newer, older, hentries, fun e he => ?_⟩
    simp only [names, hentries, List.map_append, List.map_cons, List.nodup_append] at h
    simpa using (h.2.2 e.1 (List.mem_map_of_mem he) name (List.mem_cons_self ..)).symm
  · rintro ⟨newer, older, hentries, -⟩
    simp [hentries]

/-- A map has no name twice, however it is filled. -/
theorem nodup_names_insert (h : m.names.Nodup) (value : α) :
    (m.insert name value).names.Nodup := by
  unfold names insert at *
  rw [List.map_cons, List.nodup_cons]
  constructor
  · intro hmem
    rcases List.mem_map.1 hmem with ⟨e, he, rfl⟩
    simp at he
  · exact h.sublist (List.filter_sublist.map _)

end NameMap

/-! ## Symbols of the global region -/

/-- Every name of the region has one symbol, which is named so. -/
structure Region.Tidy (r : Region) : Prop where
  nodup : r.symbols.names.Nodup
  named : ∀ e ∈ r.symbols.entries, e.2.name = e.1

theorem Region.Tidy.declare {r : Region} (h : r.Tidy) (s : Symbol) : (r.declare s).Tidy where
  nodup := NameMap.nodup_names_insert h.nodup s
  named e he := by
    rcases List.mem_cons.1 he with rfl | hold
    · rfl
    · exact h.named e (List.mem_of_mem_filter hold)

namespace SymbolTable

variable {t t' : SymbolTable}

theorem tidy_current_declare (h : t.current.Tidy) (s : Symbol) : (t.declare s).current.Tidy := by
  rcases t.exists_regions_declare s with ⟨s', -, hcurrent, -⟩
  rw [hcurrent]
  exact h.declare s'

theorem tidy_of_walk {v : Vocabulary} {role : Role} {n : Node} (hn : WellFormed v role n)
    (h : t.walk n = .ok t') : t.current.Tidy → t'.current.Tidy :=
  walk_induction (R := fun t t' => t.current.Tidy → t'.current.Tidy) (fun _ => id)
    (fun _ _ _ h h' htidy => h' (h htidy)) (fun _ s htidy => tidy_current_declare htidy s) hn h

theorem tidy_current_initial : initial.current.Tidy := by
  constructor
  · decide
  · decide

/-- The global symbols are named as the global region says, oldest first. -/
theorem names_globals (htidy : t.global.Tidy) :
    t.globals.map Symbol.name = t.global.symbols.names.reverse := by
  unfold globals NameMap.inOrder NameMap.names
  rw [List.map_map, List.map_reverse]
  congr 1
  exact List.map_congr_left htidy.named

end SymbolTable

/-- What compiles leaves the global region open, and no other. -/
theorem symbols_of_compile {source : String} {p : Program} (hcompile : compile source = .ok p) :
    p.symbols.inner = [] ∧ p.symbols.global.Tidy := by
  rcases resolved_of_compile hcompile with ⟨hroot, hanalyze⟩
  have hleaves : SymbolTable.SameOutside .initial p.symbols :=
    SymbolTable.leaves_of_walk hroot hanalyze
  have hinner : p.symbols.inner = [] := hleaves
  have htidy := SymbolTable.tidy_of_walk hroot hanalyze SymbolTable.tidy_current_initial
  refine ⟨hinner, ?_⟩
  rw [SymbolTable.current, hinner] at htidy
  exact htidy

/-! ## Names of scopes -/

/-- No scope has a name twice. -/
def Store.Distinct (st : Store) : Prop :=
  ∀ id, (st.bindings id).names.Nodup

namespace Store.Distinct

variable {st : Store}

theorem put (h : st.Distinct) (id : ScopeId) (name : String) (v? : Option Value) :
    (st.put id name v?).Distinct := by
  intro j
  by_cases hj : id = j
  · subst hj
    by_cases hid : id < st.scopes.size
    · rw [bindings_put_self st hid]
      exact NameMap.nodup_names_insert (h id) v?
    · have hbindings : (st.put id name v?).bindings id = st.bindings id := by
        simp [bindings, hid]
      rw [hbindings]
      exact h id
  · rw [bindings_put_of_ne st hj]
    exact h j

theorem bindAll (h : st.Distinct) (id : ScopeId) (pairs : List (String × Value)) :
    (st.bindAll id pairs).Distinct := by
  induction pairs generalizing st with
  | nil => exact h
  | cons x pairs ih => exact ih (h.put id x.1 (some x.2))

theorem child (h : st.Distinct) (p : ScopeId) : (st.child p).2.Distinct := by
  intro j
  rw [bindings_child]
  exact h j

theorem close (h : st.Distinct) (home : ScopeId) (spelling : String) (parameters : List String)
    (body : Node) : (st.close home spelling parameters body).2.Distinct := by
  intro j
  rw [bindings_close]
  exact h j

theorem initial : Store.initial.Distinct := by
  have hempty : Store.empty.Distinct := by
    intro j
    cases j <;> exact List.nodup_nil
  rw [initial_eq]
  exact hempty.bindAll _ _

end Store.Distinct

/-- A run without escorts, none of whose scopes has a name twice. -/
def listing : Escort Empty where
  watch := nofun
  admits _ _ := True
  home _ := True
  fresh _ := True
  kept := Store.Distinct
  abreast _ _ := True
  cutOff _ _ _ := False

theorem lawful_listing : listing.Lawful where
  later hcut _ := hcut
  inside _ _ _ := trivial
  argument _ _ _ _ := trivial
  home _ := trivial
  fresh _ _ := trivial
  newScope {p} := .newScope fun _ hkept => ⟨hkept.child p, trivial⟩
  bindAll {_ id} pairs hkept _ := hkept.bindAll id pairs
  close home name parameters body hkept := hkept.close home name parameters body
  declare {_ env} name v? _ _ _ _ hm := .silent nofun (hm.kept.put env name v?)
  assign _ name v _ _ hm := .silent nofun (hm.kept.put _ name (some v))
  write _ _ := .write_of_silent (fun _ _ _ => nofun) fun _ _ _ => ⟨nofun, trivial⟩
  readInteger _ := .readInteger_of_alike fun _ _ _ => ⟨nofun, trivial⟩

theorem Store.Distinct.eval {m : Machine} (hm : m.store.Distinct) (fuel : Nat) (n : Node)
    (env : ScopeId) : ((ScopeLang.eval fuel n env).final m).store.Distinct := by
  have hvalues : ∀ v, listing.Holds v := Escort.holds_of_home _ fun _ => trivial
  have htogether : listing.Together nofun m :=
    ⟨nofun, fun _ _ v _ => hvalues v, hm, trivial⟩
  have hends := (lawful_listing.eval fuel n env).ends trivial nofun m htogether
  rcases hends.final with ⟨_, together⟩ | ⟨_, _, _, hcut⟩
  · exact together.kept
  · exact hcut.elim

/-! ## Runs of a program -/

/-- The names of the global scope. -/
def Machine.globalNames (m : Machine) : List String :=
  (m.store.bindings Store.globalId).names

section Runs

variable {source : String} {p : Program} {fuel : Nat} {console : Console} {m : Machine}

theorem follows_owners (hcompile : compile source = .ok p) (fuel : Nat) (console : Console) :
    Follows Finder.owner.RightAt Store.globalId (executeFound .owner fuel p.root)
      (execute fuel p.root) (.initial console) [p.symbols.global]
      (Ends Finder.owner.RightAt Store.globalId p.symbols [p.symbols.global]) := by
  have hright : ∀ u ∈ p.uses, Finder.owner.RightAt u := fun _ _ _ _ _ => rfl
  have hfollows := follows_execute hcompile hright fuel console
  rw [SymbolTable.current, (symbols_of_compile hcompile).1] at hfollows
  exact hfollows

/-- A run that returns has bound what the global region declares. -/
theorem binds_global_of_declares (hcompile : compile source = .ok p) {v : Value}
    (hcall : execute fuel p.root (.initial console) = .ok v m) {name : String}
    (hname : p.symbols.global.declares name = true) :
    m.store.binds Store.globalId name = true := by
  cases follows_owners hcompile fuel console with
  | stops e m' plan' _ run _ => cases hcall.symm.trans run
  | returns w m' plan' _ run _ ends =>
      cases hcall.symm.trans run
      have hmirrors := ends.stands.mirrors
      rw [SymbolTable.regions, (symbols_of_compile hcompile).1, List.nil_append] at hmirrors
      cases hmirrors with
      | outermost scope _ => exact scope.declared name hname
      | inner _ _ around => cases around

/-- However a run ends, it has bound nothing in the global scope but what the global region
declares. -/
theorem declares_of_binds_global (hcompile : compile source = .ok p) {name : String}
    (hbinds : ((execute fuel p.root).final (.initial console)).store.binds Store.globalId name =
      true) : p.symbols.global.declares name = true := by
  rcases (follows_owners hcompile fuel console).keeps_final with ⟨plan, keeps⟩
  rcases keeps.plan with ⟨more, rfl⟩
  exact keeps.charted.planned.bounded Store.globalId p.symbols.global name rfl hbinds

/-- However a run ends, the intrinsics are still bound in the global scope. -/
theorem binds_global_intrinsic (hcompile : compile source = .ok p) (fuel : Nat)
    (console : Console) {i : Intrinsic} (hi : i ∈ Intrinsic.all) :
    ((execute fuel p.root).final (.initial console)).store.binds Store.globalId i.name = true := by
  rcases (follows_owners hcompile fuel console).keeps_final with ⟨plan, keeps⟩
  have hinitial : ∀ i ∈ Intrinsic.all, Store.initial.binds Store.globalId i.name = true := by
    decide
  exact keeps.grows.binds _ _ (hinitial i hi)

end Runs

/-- The symbols of the global region predict the names of the global scope. Each of them has a
name of its own. If a program that compiles returns, the global scope has exactly these names.
If it stops, the global scope has some of them, the intrinsics included. -/
theorem global_names_predicted {source : String} {p : Program} (hcompile : compile source = .ok p)
    (fuel : Nat) (console : Console) :
    let predicted := p.symbols.globals.map Symbol.name
    predicted.Nodup ∧
      (∀ v m, execute fuel p.root (.initial console) = .ok v m →
        m.globalNames.Perm predicted) ∧
      ∀ e m, execute fuel p.root (.initial console) = .error e m →
        m.globalNames.Subperm predicted ∧ ∀ i ∈ Intrinsic.all, i.name ∈ m.globalNames := by
  intro predicted
  have htidy := (symbols_of_compile hcompile).2
  have hpredicted : predicted = p.symbols.global.symbols.names.reverse :=
    SymbolTable.names_globals htidy
  have hmem : ∀ name, name ∈ predicted ↔ p.symbols.global.declares name = true := by
    intro name
    rw [hpredicted, List.mem_reverse, NameMap.mem_names]
    rfl
  have hdistinct : ((execute fuel p.root).final (.initial console)).globalNames.Nodup :=
    Store.Distinct.initial.eval (m := .initial console) fuel p.root Store.globalId Store.globalId
  have hbounded : ((execute fuel p.root).final (.initial console)).globalNames ⊆ predicted :=
    fun name hname =>
      (hmem name).2 (declares_of_binds_global hcompile (NameMap.mem_names.1 hname))
  have hnodup : predicted.Nodup := by
    rw [hpredicted]
    exact List.nodup_reverse.2 htidy.nodup
  refine ⟨hnodup, fun v m hcall => ?_, fun e m hcall => ⟨?_, fun i hi => ?_⟩⟩
  · rw [Exec.final_of_ok hcall] at hdistinct hbounded
    apply (List.perm_ext_iff_of_nodup hdistinct hnodup).2
    intro name
    refine ⟨fun hname => hbounded hname, fun hname => ?_⟩
    exact NameMap.mem_names.2 (binds_global_of_declares hcompile hcall ((hmem name).1 hname))
  · rw [Exec.final_of_error hcall] at hdistinct hbounded
    exact List.subperm_of_subset hdistinct hbounded
  · have hbinds := binds_global_intrinsic hcompile fuel console hi
    rw [Exec.final_of_error hcall] at hbinds
    exact NameMap.mem_names.2 hbinds

/-- A program that divides by a number from its input. With one input it returns and has all
names, with another it stops at the division and does not have the name that is declared after
it. The name of the block is in neither. -/
theorem global_names_predicted_division :
    let source := "var x; x = readint(); if (1) { var z; z = 10 / x; } var y; x;"
    let start := fun input : String => Machine.initial (.ofInput (Text.bytes input) none)
    ∃ p, compile source = .ok p ∧
      p.symbols.globals.map Symbol.name = ["print", "println", "readint", "x", "y"] ∧
      (∃ v m, execute 20 p.root (start "5") = .ok v m ∧
        m.globalNames.Perm ["print", "println", "readint", "x", "y"]) ∧
      ∃ e m, execute 20 p.root (start "0") = .error e m ∧
        m.globalNames.Subperm ["print", "println", "readint", "x", "y"] ∧
        (∀ i ∈ Intrinsic.all, i.name ∈ m.globalNames) ∧ "y" ∉ m.globalNames := by
  intro source start
  have hrun : (compile source).map (fun p => (p.symbols.globals.map Symbol.name,
      ((execute 20 p.root).outcome (start "5")).map Value.render,
      ((execute 20 p.root).outcome (start "0")).map Value.render,
      ((execute 20 p.root).final (start "0")).globalNames.contains "y")) =
      .ok (["print", "println", "readint", "x", "y"], .ok "5",
        .error (.fault ⟨.divisionByZero, ⟨1, 46⟩⟩), false) := by
    decide +kernel
  cases hcompile : compile source with
  | error f =>
      rw [hcompile] at hrun
      cases hrun
  | ok p =>
      rw [hcompile] at hrun
      rcases Prod.mk.inj (Except.ok.inj hrun) with ⟨hnames, hruns⟩
      rcases Prod.mk.inj hruns with ⟨hreturns, hothers⟩
      rcases Prod.mk.inj hothers with ⟨hstops, habsent⟩
      have hpredicted := global_names_predicted hcompile 20
      rw [hnames] at hpredicted
      refine ⟨p, rfl, hnames, ?_, ?_⟩
      · cases hcall : execute 20 p.root (start "5") with
        | ok v m => exact ⟨v, m, rfl, (hpredicted _).2.1 v m hcall⟩
        | error e m =>
            rw [Exec.outcome, hcall] at hreturns
            cases hreturns
      · cases hcall : execute 20 p.root (start "0") with
        | ok v m =>
            rw [Exec.outcome, hcall] at hstops
            cases hstops
        | error e m =>
            rcases (hpredicted _).2.2 e m hcall with ⟨hsome, hintrinsics⟩
            rw [Exec.final_of_error hcall] at habsent
            exact ⟨e, m, rfl, hsome, hintrinsics, by simpa using habsent⟩

end ScopeLang
