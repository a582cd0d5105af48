-- SUMMARY: A symbol table after any operations on it, as the log of the operations tells it.
import Mathlib.Data.List.Induction
import ScopeLang.Proofs.GlobalNames

/-! # Declaration logs

Regions are opened and closed and names are declared, in any order, starting from
a table without declarations. What the table then says can be told from the log of
these operations. A declaration stands as long as the region is open that it was
made in, which is as long as the depth does not fall below the depth at that time.
A name refers to the latest declaration that stands in the innermost region that
has one. The global region is at depth zero, so its declarations stand forever, and
they are numbered.

The table keeps one declaration for each name of a region. For the global region
these are in the order of their numbers, and no two have the same number: they can
be sorted by it, in whatever order they are found.
-/

namespace ScopeLang

/-! ## Sorting -/

/-- Symbols that increase in their numbers are what sorting makes of them, in whatever order they
are found. -/
theorem Symbol.mergeSort_eq_of_perm {l found : List Symbol}
    (hl : l.Pairwise fun a b => a.order < b.order) (hperm : found.Perm l) :
    found.mergeSort (fun a b => decide (a.order ≤ b.order)) = l := by
  have hinjective : ∀ a ∈ l, ∀ b ∈ l, a.order = b.order → a = b := by
    apply List.inj_on_of_nodup_map
    exact (List.pairwise_map.2 hl).imp Nat.ne_of_lt
  have hsorted : (found.mergeSort fun a b => decide (a.order ≤ b.order)).Pairwise
      fun a b => a.order ≤ b.order := by
    refine (List.pairwise_mergeSort ?_ ?_ found).imp fun hab => of_decide_eq_true hab
    · intro a b c hab hbc
      simp only [decide_eq_true_eq] at hab hbc ⊢
      exact Nat.le_trans hab hbc
    · intro a b
      simpa using Nat.le_total a.order b.order
  refine List.Perm.eq_of_pairwise ?_ hsorted (hl.imp Nat.le_of_lt)
    ((List.mergeSort_perm _ _).trans hperm)
  intro a b ha hb hab hba
  have ha : a ∈ l := hperm.mem_iff.1 (List.mem_mergeSort.1 ha)
  exact hinjective a ha b hb (Nat.le_antisymm hab hba)

/-! ## Numbers of declarations -/

/-- Every name of the region has one symbol. The newer ones have the higher numbers, and all of
them are below the number of the next one. -/
structure Region.Numbered (r : Region) (next : Nat) : Prop extends r.Tidy where
  falling : r.symbols.entries.Pairwise fun newer older => older.2.order < newer.2.order
  below : ∀ e ∈ r.symbols.entries, e.2.order < next

namespace Region.Numbered

variable {r : Region} {next : Nat}

theorem declare (h : r.Numbered next) (s : Symbol) :
    (r.declare { s with order := next }).Numbered (next + 1) where
  toTidy := h.toTidy.declare _
  falling := by
    unfold Region.declare NameMap.insert
    apply List.Pairwise.cons
    · intro e he
      exact h.below e (List.mem_of_mem_filter he)
    · exact h.falling.filter _
  below e he := by
    rcases List.mem_cons.1 he with rfl | hold
    · exact Nat.lt_succ_self next
    · exact Nat.lt_succ_of_lt (h.below e (List.mem_of_mem_filter hold))

end Region.Numbered

namespace SymbolTable

/-! ## Logs -/

/-- An operation on a symbol table. -/
inductive Operation
  | declare (s : Symbol)
  | push (kind : RegionKind)
  | pop

def Operation.apply (t : SymbolTable) : Operation → SymbolTable
  | .declare s => (t.introduce s).2
  | .push kind => t.push kind
  | .pop => t.pop

/-- The operations that a table has seen, the oldest first. -/
abbrev Log := List Operation

namespace Log

/-- The table after some operations. -/
def replay (log : Log) : SymbolTable :=
  log.foldl Operation.apply {}

/-- The depth after one more operation. Closing a region has no effect at depth zero. -/
def depthAfter (depth : Nat) : Operation → Nat
  | .declare _ => depth
  | .push _ => depth + 1
  | .pop => depth - 1

/-- How many regions are open inside the global one. -/
def depth (log : Log) : Nat :=
  log.foldl depthAfter 0

/-- Operation `i` is a declaration of the global region. -/
def isGlobal (log : Log) (i : Nat) : Bool :=
  match log[i]? with
  | some (.declare _) => depth (log.take i) == 0
  | _ => false

/-- How many declarations were made in the global region. -/
def globalCount (log : Log) : Nat :=
  (List.range log.length).countP log.isGlobal

/-- Operation `i` declared the symbol at a depth, and the region it did so in is still open. -/
@[mk_iff] structure Stands (log : Log) (i depth : Nat) (s : Symbol) : Prop where
  made : log[i]? = some (.declare s)
  at_depth : Log.depth (log.take i) = depth
  stays : ∀ j, i ≤ j → depth ≤ Log.depth (log.take j)

/-- The declaration stands, and no later one of its name does in the same region. -/
structure Latest (log : Log) (i depth : Nat) (s : Symbol) : Prop extends
    Stands log i depth s where
  latest : ∀ j s', Stands log j depth s' → s'.name = s.name → j ≤ i

/-- The declaration is what its name refers to. -/
structure Refers (log : Log) (i depth : Nat) (s : Symbol) : Prop extends
    Latest log i depth s where
  innermost : ∀ j depth' s', Stands log j depth' s' → s'.name = s.name → depth' ≤ depth

/-- The symbol of a declaration. In the global region it has the number of earlier declarations
there. -/
def symbol (log : Log) (i depth : Nat) (s : Symbol) : Symbol :=
  if depth = 0 then { s with order := globalCount (log.take i) } else s

/-- The latest declaration of the name at a depth makes it the symbol. -/
def Recorded (log : Log) (depth : Nat) (name : String) (x : Symbol) : Prop :=
  ∃ i s, Latest log i depth s ∧ s.name = name ∧ x = symbol log i depth s

/-! ## One more operation -/

section Append

variable {log : Log} {op : Operation} {i d : Nat} {s s' : Symbol}

theorem replay_append (log : Log) (op : Operation) :
    replay (log ++ [op]) = op.apply (replay log) := by
  simp [replay]

theorem depth_append (log : Log) (op : Operation) :
    depth (log ++ [op]) = depthAfter (depth log) op := by
  simp [depth]

theorem take_append_of_lt (h : log.length < i) : (log ++ [op]).take i = log ++ [op] := by
  apply List.take_of_length_le
  simpa using Nat.succ_le_of_lt h

/-- The depth has been no less since operation `i`, and is not now. -/
theorem le_depth_append_iff (hi : i ≤ log.length) :
    (∀ j, i ≤ j → d ≤ depth ((log ++ [op]).take j)) ↔
      (∀ j, i ≤ j → d ≤ depth (log.take j)) ∧ d ≤ depth (log ++ [op]) := by
  constructor
  · intro h
    refine ⟨fun j hj => ?_, ?_⟩
    · rcases Nat.le_total j log.length with hle | hge
      · simpa only [List.take_append_of_le_length hle] using h j hj
      · have hend := h log.length hi
        simp only [List.take_append_of_le_length (Nat.le_refl _), List.take_length] at hend
        simpa only [List.take_of_length_le hge] using hend
    · simpa only [take_append_of_lt (Nat.lt_succ_self _)] using h (log.length + 1) (by omega)
  · rintro ⟨h, hnow⟩ j hj
    rcases Nat.lt_or_ge log.length j with hlt | hge
    · simpa only [take_append_of_lt hlt] using hnow
    · simpa only [List.take_append_of_le_length hge] using h j hj

theorem isGlobal_append (h : i < log.length) : isGlobal (log ++ [op]) i = isGlobal log i := by
  unfold isGlobal
  simp only [List.getElem?_append_left h, List.take_append_of_le_length (Nat.le_of_lt h)]

theorem isGlobal_append_length (log : Log) (op : Operation) :
    isGlobal (log ++ [op]) log.length = match op with
      | .declare _ => depth log == 0
      | _ => false := by
  unfold isGlobal
  simp only [List.getElem?_concat_length, List.take_append_of_le_length (Nat.le_refl _),
    List.take_length]
  cases op <;> rfl

theorem globalCount_append (log : Log) (op : Operation) :
    globalCount (log ++ [op]) = globalCount log + (isGlobal (log ++ [op]) log.length).toNat := by
  have hold : (List.range log.length).countP (isGlobal (log ++ [op])) =
      (List.range log.length).countP (isGlobal log) := by
    apply List.countP_congr
    intro i hi
    simp only [isGlobal_append (List.mem_range.1 hi)]
  unfold globalCount
  simp only [List.length_append, List.length_singleton, List.range_succ, List.countP_append, hold]
  cases hglobal : isGlobal (log ++ [op]) log.length <;> simp [hglobal]

namespace Stands

theorem lt_length (h : Stands log i d s) : i < log.length :=
  (List.getElem?_eq_some_iff.1 h.made).1

theorem le_depth (h : Stands log i d s) : d ≤ depth log := by
  have hend := h.stays log.length (Nat.le_of_lt h.lt_length)
  simpa using hend

theorem append_iff_of_lt (hi : i < log.length) :
    Stands (log ++ [op]) i d s ↔ Stands log i d s ∧ d ≤ depth (log ++ [op]) := by
  have hle := Nat.le_of_lt hi
  simp only [stands_iff, List.getElem?_append_left hi, List.take_append_of_le_length hle,
    le_depth_append_iff hle, and_assoc]

theorem append_length_iff :
    Stands (log ++ [op]) log.length d s ↔ op = .declare s ∧ d = depth log := by
  simp only [stands_iff, List.getElem?_concat_length, List.take_append_of_le_length (Nat.le_refl _),
    le_depth_append_iff (Nat.le_refl _), List.take_length, Option.some.injEq]
  constructor
  · rintro ⟨hdeclare, hdepth, -⟩
    exact ⟨hdeclare, hdepth.symm⟩
  · rintro ⟨rfl, rfl⟩
    refine ⟨rfl, rfl, fun j hj => ?_, ?_⟩
    · simp only [List.take_of_length_le hj, Nat.le_refl]
    · simp only [depth_append, depthAfter, Nat.le_refl]

/-- What stands after one more operation stood before, or has just been declared. -/
theorem append_iff : Stands (log ++ [op]) i d s ↔
    (Stands log i d s ∧ d ≤ depth (log ++ [op])) ∨
      (i = log.length ∧ op = .declare s ∧ d = depth log) := by
  constructor
  · intro h
    have hle : i ≤ log.length := by
      simpa [Nat.lt_succ_iff] using h.lt_length
    rcases Nat.lt_or_eq_of_le hle with hlt | rfl
    · exact .inl ((append_iff_of_lt hlt).1 h)
    · exact .inr ⟨rfl, append_length_iff.1 h⟩
  · rintro (h | ⟨rfl, h⟩)
    · exact (append_iff_of_lt h.1.lt_length).2 h
    · exact append_length_iff.2 h

/-- Of the declarations of a name that stand in a region, one is the latest. -/
theorem exists_latest (h : Stands log i d s) :
    ∃ j s', Latest log j d s' ∧ s'.name = s.name := by
  -- There are only so many positions after this one.
  induction hn : log.length - i using Nat.strongRecOn generalizing i s with
  | ind n ih =>
      by_cases hlast : ∀ j s', Stands log j d s' → s'.name = s.name → j ≤ i
      · exact ⟨i, s, ⟨h, hlast⟩, rfl⟩
      · simp only [not_forall, Nat.not_le] at hlast
        rcases hlast with ⟨j, s', hstands, hname, hlt⟩
        have hlength := hstands.lt_length
        rcases ih (log.length - j) (by omega) hstands rfl with ⟨k, s'', hlatest, hname'⟩
        exact ⟨k, s'', hlatest, hname'.trans hname⟩

end Stands

/-- The latest declaration of a name in a region stays the latest one as long as the region is
open and the name is not declared there again. -/
theorem latest_append_iff (hd : d ≤ depth (log ++ [op]))
    (hop : ∀ s', op = .declare s' → d = depth log → s'.name ≠ s.name) :
    Latest (log ++ [op]) i d s ↔ Latest log i d s := by
  have hsame : ∀ j s', s'.name = s.name →
      (Stands (log ++ [op]) j d s' ↔ Stands log j d s') := by
    intro j s' hname
    constructor
    · intro h
      rcases Stands.append_iff.1 h with ⟨hold, -⟩ | ⟨-, hdeclare, hdepth⟩
      · exact hold
      · exact absurd hname (hop s' hdeclare hdepth)
    · exact fun h => Stands.append_iff.2 (.inl ⟨h, hd⟩)
  constructor
  · intro h
    exact ⟨(hsame i s rfl).1 h.toStands,
      fun j s' hstands hname => h.latest j s' ((hsame j s' hname).2 hstands) hname⟩
  · intro h
    exact ⟨(hsame i s rfl).2 h.toStands,
      fun j s' hstands hname => h.latest j s' ((hsame j s' hname).1 hstands) hname⟩

/-- A declaration is the latest one of its name in the innermost region. -/
theorem latest_append_declare_iff (hname : s.name = s'.name) :
    Latest (log ++ [.declare s']) i (depth log) s ↔ i = log.length ∧ s = s' := by
  have hnew : Stands (log ++ [.declare s']) log.length (depth log) s' :=
    Stands.append_iff.2 (.inr ⟨rfl, rfl, rfl⟩)
  constructor
  · intro h
    rcases Stands.append_iff.1 h.toStands with ⟨hold, -⟩ | ⟨hi, hdeclare, -⟩
    · have hle := h.latest log.length s' hnew hname.symm
      exact absurd hold.lt_length (Nat.not_lt_of_le hle)
    · cases hdeclare
      exact ⟨hi, rfl⟩
  · rintro ⟨rfl, rfl⟩
    refine ⟨hnew, fun j s'' hstands _ => ?_⟩
    have hlt := hstands.lt_length
    simp only [List.length_append, List.length_singleton] at hlt
    omega

theorem name_symbol : (symbol log i d s).name = s.name := by
  unfold symbol
  split <;> rfl

theorem symbol_append (h : i ≤ log.length) : symbol (log ++ [op]) i d s = symbol log i d s := by
  simp only [symbol, List.take_append_of_le_length h]

namespace Recorded

variable {name : String} {x : Symbol}

theorem append_iff (hd : d ≤ depth (log ++ [op]))
    (hop : ∀ s', op = .declare s' → d = depth log → s'.name ≠ name) :
    Recorded (log ++ [op]) d name x ↔ Recorded log d name x := by
  constructor
  · rintro ⟨i, s', hi, rfl, rfl⟩
    have hold := (latest_append_iff hd hop).1 hi
    exact ⟨i, s', hold, rfl, symbol_append (Nat.le_of_lt hold.lt_length)⟩
  · rintro ⟨i, s', hi, rfl, rfl⟩
    have hle := Nat.le_of_lt hi.lt_length
    exact ⟨i, s', (latest_append_iff hd hop).2 hi, rfl, (symbol_append hle).symm⟩

theorem append_declare_iff :
    Recorded (log ++ [.declare s]) (depth log) s.name x ↔
      x = symbol log log.length (depth log) s := by
  constructor
  · rintro ⟨i, s', hi, hname, rfl⟩
    rcases (latest_append_declare_iff hname).1 hi with ⟨rfl, rfl⟩
    exact symbol_append (Nat.le_refl _)
  · rintro rfl
    refine ⟨log.length, s, ?_, rfl, (symbol_append (Nat.le_refl _)).symm⟩
    exact (latest_append_declare_iff rfl).2 ⟨rfl, rfl⟩

end Recorded

end Append

end Log

/-! ## Regions and their declarations -/

open Log

/-- The region has the declarations that are recorded at its depth. -/
def Log.Describes (log : Log) (depth : Nat) (r : Region) : Prop :=
  ∀ name x, r.get? name = some x ↔ Recorded log depth name x

namespace Log.Describes

variable {log : Log} {op : Operation} {d : Nat} {r : Region} {name : String}

/-- An operation elsewhere does not matter. -/
theorem append (h : Describes log d r) (hd : d ≤ depth (log ++ [op]))
    (hop : ∀ s, op = .declare s → d ≠ depth log) : Describes (log ++ [op]) d r := by
  intro name x
  refine (h name x).trans (Recorded.append_iff hd ?_).symm
  exact fun s hdeclare hdepth => absurd hdepth (hop s hdeclare)

/-- A declaration replaces the older one of its name. -/
theorem declare (h : Describes log (depth log) r) (s : Symbol) :
    Describes (log ++ [.declare s]) (depth log)
      (r.declare (symbol log log.length (depth log) s)) := by
  intro name x
  unfold Region.get? Region.declare
  simp only [name_symbol]
  by_cases hname : s.name = name
  · subst hname
    simp only [NameMap.get?_insert_self, Option.some.injEq, Recorded.append_declare_iff]
    exact eq_comm
  · simp only [NameMap.get?_insert_of_ne _ _ (Ne.symm hname)]
    refine (h name x).trans (Recorded.append_iff ?_ ?_).symm
    · simp only [depth_append, depthAfter, Nat.le_refl]
    · rintro s' ⟨⟩ -
      exact hname

/-- Nothing has been declared in a region that is just opened. -/
theorem push (log : Log) (kind : RegionKind) :
    Describes (log ++ [.push kind]) (depth log + 1) ⟨kind, .empty⟩ := by
  intro name x
  constructor
  · intro h
    cases h
  · rintro ⟨i, s, hi, -, -⟩
    rcases Stands.append_iff.1 hi.toStands with ⟨hold, -⟩ | ⟨-, hpush, -⟩
    · exact absurd hold.le_depth (Nat.not_succ_le_self _)
    · cases hpush

/-- The region declares the names that have a declaration standing at its depth. -/
theorem declares_iff (h : Describes log d r) :
    r.declares name = true ↔ ∃ i s, Stands log i d s ∧ s.name = name := by
  refine Option.isSome_iff_exists.trans ((exists_congr (h name)).trans ?_)
  constructor
  · rintro ⟨x, i, s, hi, hname, -⟩
    exact ⟨i, s, hi.toStands, hname⟩
  · rintro ⟨i, s, hi, rfl⟩
    rcases hi.exists_latest with ⟨j, s', hj, hname⟩
    exact ⟨symbol log j d s', j, s', hj, hname, rfl⟩

end Log.Describes

/-- The regions, innermost first, are those at the depths below their number. -/
inductive Log.Stacked (log : Log) : List Region → Prop
  | nil : Stacked log []
  | cons {r : Region} {outer : List Region} (inside : Describes log outer.length r)
      (around : Stacked log outer) : Stacked log (r :: outer)

namespace Log.Stacked

variable {log : Log} {op : Operation} {r : Region} {rs outer : List Region} {name : String}
variable {x : Symbol}

theorem append (h : Stacked log rs) (hle : rs.length ≤ depth (log ++ [op]) + 1)
    (hop : ∀ s, op = .declare s → rs.length ≤ depth log) : Stacked (log ++ [op]) rs := by
  induction h with
  | nil => exact .nil
  | cons inside _ ih =>
      simp only [List.length_cons] at hle hop
      constructor
      · apply inside.append
        · omega
        · intro s hdeclare
          have := hop s hdeclare
          omega
      · apply ih
        · omega
        · intro s hdeclare
          have := hop s hdeclare
          omega

/-- A name is found in the innermost region that has it. -/
theorem findSome?_eq_some_iff (h : Stacked log rs) :
    rs.findSome? (·.get? name) = some x ↔
      ∃ d, d < rs.length ∧ Recorded log d name x ∧
        ∀ i d' s, d' < rs.length → Stands log i d' s → s.name = name → d' ≤ d := by
  induction h with
  | nil => simp
  | @cons r outer inside _ ih =>
      simp only [List.findSome?_cons, List.length_cons, Nat.lt_succ_iff]
      cases hr : r.get? name with
      | some y =>
          rcases (inside name y).1 hr with ⟨i, s, hi, hname, rfl⟩
          constructor
          · rintro ⟨⟩
            exact ⟨outer.length, Nat.le_refl _, ⟨i, s, hi, hname, rfl⟩, fun _ _ _ hle _ _ => hle⟩
          · rintro ⟨d, hd, hx, hinnermost⟩
            have hle := hinnermost i outer.length s (Nat.le_refl _) hi.toStands hname
            have hd : d = outer.length := Nat.le_antisymm hd hle
            subst hd
            exact hr.symm.trans ((inside name x).2 hx)
      | none =>
          have habsent : ∀ i s, Stands log i outer.length s → s.name ≠ name := by
            intro i s hi hname
            have hdeclares := inside.declares_iff.2 ⟨i, s, hi, hname⟩
            have hsome : (r.get? name).isSome = true := hdeclares
            simp [hr] at hsome
          refine ih.trans (exists_congr fun d => ?_)
          constructor
          · rintro ⟨hd, hx, hinnermost⟩
            refine ⟨Nat.le_of_lt hd, hx, fun i d' s hd' hi hname => ?_⟩
            rcases Nat.lt_or_eq_of_le hd' with hlt | rfl
            · exact hinnermost i d' s hlt hi hname
            · exact absurd hname (habsent i s hi)
          · rintro ⟨hd, hx, hinnermost⟩
            refine ⟨?_, hx, fun i d' s hd' => hinnermost i d' s (Nat.le_of_lt hd')⟩
            rcases Nat.lt_or_eq_of_le hd with hlt | rfl
            · exact hlt
            · rcases hx with ⟨i, s, hi, hname, -⟩
              exact absurd hname (habsent i s hi.toStands)

/-- The last region is the one at depth zero. -/
theorem describes_last (h : Stacked log (rs ++ [r])) : Describes log 0 r := by
  induction rs with
  | nil =>
      cases h with
      | cons inside _ => exact inside
  | cons _ rs ih =>
      cases h with
      | cons _ around => exact ih around

end Log.Stacked

/-! ## Regions of a table -/

section Regions

variable (t : SymbolTable) (s : Symbol)

theorem length_regions : t.regions.length = t.depth + 1 := by
  simp [regions, SymbolTable.depth]

theorem regions_declare : (t.declare s).regions =
    t.current.declare (if t.depth = 0 then { s with order := t.counter } else s) ::
      t.regions.tail := by
  rcases t with ⟨inner, global, counter⟩
  cases inner <;> rfl

theorem counter_declare :
    (t.declare s).counter = if t.depth = 0 then t.counter + 1 else t.counter := by
  rcases t with ⟨inner, global, counter⟩
  cases inner <;> rfl

theorem regions_pop : t.pop.regions = if t.depth = 0 then t.regions else t.regions.tail := by
  rcases t with ⟨inner, global, counter⟩
  cases inner <;> rfl

end Regions

/-! ## Tables and their logs -/

/-- The table is as the log tells. -/
structure Agrees (t : SymbolTable) (log : Log) : Prop where
  depth : t.depth = log.depth
  counter : t.counter = log.globalCount
  kind : t.global.kind = .program
  stacked : log.Stacked t.regions
  numbered : t.global.Numbered t.counter

namespace Agrees

variable {t : SymbolTable} {log : Log}

theorem initial : Agrees {} [] where
  depth := rfl
  counter := rfl
  kind := rfl
  stacked := by
    apply Stacked.cons _ .nil
    intro name x
    constructor
    · intro h
      cases h
    · rintro ⟨i, s, hi, -, -⟩
      exact absurd hi.lt_length (Nat.not_lt_zero i)
  numbered := ⟨⟨.nil, nofun⟩, .nil, nofun⟩

/-- The innermost region is the one at the depth of the log. -/
theorem current (h : Agrees t log) : log.Describes log.depth t.current ∧
    log.Stacked t.regions.tail ∧ t.regions.tail.length = log.depth := by
  have hlength : t.regions.tail.length = log.depth := by
    simp [length_regions, h.depth]
  have hstacked := h.stacked
  rw [regions_eq] at hstacked
  cases hstacked with
  | cons inside around =>
      refine ⟨?_, around, hlength⟩
      simpa only [hlength] using inside

theorem declare (h : Agrees t log) (s : Symbol) :
    Agrees (t.declare s) (log ++ [.declare s]) where
  depth := by simp [depth_append, depthAfter, h.depth]
  counter := by
    simp only [globalCount_append, isGlobal_append_length, counter_declare, h.counter, h.depth]
    split <;> simp [*]
  kind := by
    unfold SymbolTable.declare
    split <;> exact h.kind
  stacked := by
    rcases h.current with ⟨hcurrent, hstacked, hlength⟩
    have hsymbol : log.symbol log.length log.depth s =
        if t.depth = 0 then { s with order := t.counter } else s := by
      simp only [symbol, List.take_length, h.depth, h.counter]
    rw [regions_declare, ← hsymbol]
    constructor
    · simpa only [hlength] using hcurrent.declare s
    · apply hstacked.append
      · simp only [hlength, depth_append, depthAfter]
        omega
      · intro s' _
        exact Nat.le_of_eq hlength
  numbered := by
    unfold SymbolTable.declare
    split
    · exact h.numbered.declare s
    · exact h.numbered

theorem push (h : Agrees t log) (kind : RegionKind) :
    Agrees (t.push kind) (log ++ [.push kind]) where
  depth := by simp [depth_append, depthAfter, h.depth]
  counter := by
    simp only [globalCount_append, isGlobal_append_length]
    exact h.counter
  kind := h.kind
  stacked := by
    have hlength : t.regions.length = log.depth + 1 := by
      simp only [length_regions, h.depth]
    have hregions : (t.push kind).regions = ⟨kind, .empty⟩ :: t.regions := rfl
    rw [hregions]
    constructor
    · simpa only [hlength] using Describes.push log kind
    · apply h.stacked.append
      · simp only [hlength, depth_append, depthAfter]
        omega
      · rintro s ⟨⟩
  numbered := h.numbered

theorem pop (h : Agrees t log) : Agrees t.pop (log ++ [.pop]) where
  depth := by simp [depth_append, depthAfter, h.depth]
  counter := by
    simp only [globalCount_append, isGlobal_append_length]
    exact h.counter
  kind := h.kind
  stacked := by
    rcases h.current with ⟨-, hstacked, hlength⟩
    rw [regions_pop]
    split
    · apply h.stacked.append
      · simp [length_regions, *]
      · rintro s ⟨⟩
    · apply hstacked.append
      · simp only [hlength, depth_append, depthAfter]
        omega
      · rintro s ⟨⟩
  numbered := h.numbered

theorem apply (h : Agrees t log) (op : Operation) : Agrees (op.apply t) (log ++ [op]) := by
  cases op with
  | declare s => exact h.declare s
  | push kind => exact h.push kind
  | pop => exact h.pop

theorem of_replay (log : Log) : Agrees log.replay log := by
  induction log using List.reverseRecOn with
  | nil => exact initial
  | append_singleton log op ih =>
      simp only [replay_append]
      exact ih.apply op

/-- A name refers to the latest declaration of the innermost region that has one. -/
theorem lookup_eq_some_iff (h : Agrees t log) {name : String} {x : Symbol} :
    t.lookup name = some x ↔
      ∃ i d s, Refers log i d s ∧ s.name = name ∧ x = log.symbol i d s := by
  have hlength : t.regions.length = log.depth + 1 := by
    simp only [length_regions, h.depth]
  refine h.stacked.findSome?_eq_some_iff.trans ?_
  constructor
  · rintro ⟨d, -, ⟨i, s, hi, rfl, rfl⟩, hinnermost⟩
    refine ⟨i, d, s, ⟨hi, fun j d' s' hj hname => ?_⟩, rfl, rfl⟩
    have hle := hj.le_depth
    exact hinnermost j d' s' (by omega) hj hname
  · rintro ⟨i, d, s, hi, rfl, rfl⟩
    have hle := hi.le_depth
    exact ⟨d, by omega, ⟨i, s, hi.toLatest, rfl, rfl⟩,
      fun j d' s' _ hj hname => hi.innermost j d' s' hj hname⟩

theorem describes_global (h : Agrees t log) : log.Describes 0 t.global :=
  h.stacked.describes_last

/-- The global symbols are the latest declarations of their names. -/
theorem mem_globals_iff (h : Agrees t log) {x : Symbol} :
    x ∈ t.globals ↔ ∃ i s, Latest log i 0 s ∧ x = log.symbol i 0 s := by
  have hentries : ∀ name, (name, x) ∈ t.global.symbols.entries ↔ Recorded log 0 name x :=
    fun name => (NameMap.mem_entries_iff h.numbered.nodup).trans (h.describes_global name x)
  simp only [globals, NameMap.inOrder, List.mem_map, List.mem_reverse, Prod.exists,
    exists_eq_right, hentries]
  constructor
  · rintro ⟨_, i, s, hi, -, hx⟩
    exact ⟨i, s, hi, hx⟩
  · rintro ⟨i, s, hi, hx⟩
    exact ⟨s.name, i, s, hi, rfl, hx⟩

/-- The global symbols have the names that were declared at depth zero. -/
theorem mem_names_globals_iff (h : Agrees t log) {name : String} :
    name ∈ t.globals.map Symbol.name ↔
      ∃ i s, log[i]? = some (.declare s) ∧ Log.depth (log.take i) = 0 ∧ s.name = name := by
  simp only [names_globals h.numbered.toTidy, List.mem_reverse, NameMap.mem_names]
  refine h.describes_global.declares_iff.trans ?_
  constructor
  · rintro ⟨i, s, hi, hname⟩
    exact ⟨i, s, hi.made, hi.at_depth, hname⟩
  · rintro ⟨i, s, hmade, hdepth, hname⟩
    exact ⟨i, s, ⟨hmade, hdepth, fun j _ => Nat.zero_le _⟩, hname⟩

theorem pairwise_globals (h : Agrees t log) :
    t.globals.Pairwise fun a b => a.order < b.order := by
  unfold globals NameMap.inOrder
  simp only [List.pairwise_map, List.pairwise_reverse]
  exact h.numbered.falling

end Agrees

/-- A table is what the log of the operations on it tells. The region at its bottom is the global
one, whatever is closed. A name refers to the latest declaration of the innermost open region that
has one. A declaration tells whether one of its name stands in the region it is made in. The global
symbols have each name once that was declared at depth zero, with its latest declaration there,
numbered by the earlier ones; their numbers increase, so that sorting the symbols of the region
gives this list, in whatever order they are found. -/
theorem replay_agrees (log : Log) :
    let t := log.replay
    (t.regions.getLast? = some t.global ∧ t.global.kind = .program ∧ t.depth = log.depth) ∧
      (∀ name x, t.lookup name = some x ↔
        ∃ i d s, Refers log i d s ∧ s.name = name ∧ x = log.symbol i d s) ∧
      (∀ s, (t.introduce s).1 = true ↔ ∃ i s', Stands log i log.depth s' ∧ s'.name = s.name) ∧
      (∀ x, x ∈ t.globals ↔ ∃ i s, Latest log i 0 s ∧ x = log.symbol i 0 s) ∧
      (∀ name, name ∈ t.globals.map Symbol.name ↔
        ∃ i s, log[i]? = some (.declare s) ∧ Log.depth (log.take i) = 0 ∧ s.name = name) ∧
      (t.globals.map Symbol.name).Nodup ∧
      (t.globals.Pairwise fun a b => a.order < b.order) ∧
      ∀ found : List Symbol, found.Perm (t.global.symbols.entries.map Prod.snd) →
        found.mergeSort (fun a b => decide (a.order ≤ b.order)) = t.globals := by
  intro t
  have h : Agrees t log := .of_replay log
  have hlisted : t.globals.Perm (t.global.symbols.entries.map Prod.snd) :=
    (List.reverse_perm _).map _
  refine ⟨⟨?_, h.kind, h.depth⟩, fun _ _ => h.lookup_eq_some_iff,
    fun _ => h.current.1.declares_iff, fun _ => h.mem_globals_iff,
    fun _ => h.mem_names_globals_iff, ?_, h.pairwise_globals, fun found hfound => ?_⟩
  · simp [regions]
  · simp only [names_globals h.numbered.toTidy, List.nodup_reverse]
    exact h.numbered.nodup
  · exact Symbol.mergeSort_eq_of_perm h.pairwise_globals (hfound.trans hlisted.symm)

/-- A name that is declared again keeps its latest number, whatever a block inside declares and
however often regions are closed. The newer symbol is found first, and comes last. -/
theorem replay_agrees_redeclared :
    let declaration := fun (name : String) (line : Nat) => (⟨name, .var, ⟨line, 1⟩, 0⟩ : Symbol)
    let log : Log := [.declare (declaration "b" 1), .declare (declaration "a" 2), .push .block,
      .declare (declaration "b" 3), .pop, .pop, .declare (declaration "b" 4)]
    let found : List Symbol := [⟨"b", .var, ⟨4, 1⟩, 2⟩, ⟨"a", .var, ⟨2, 1⟩, 1⟩]
    found.Perm (log.replay.global.symbols.entries.map Prod.snd) ∧
      found.mergeSort (fun a b => decide (a.order ≤ b.order)) =
        [⟨"a", .var, ⟨2, 1⟩, 1⟩, ⟨"b", .var, ⟨4, 1⟩, 2⟩] := by
  intro declaration log found
  have hfound : found.Perm (log.replay.global.symbols.entries.map Prod.snd) := by decide
  refine ⟨hfound, ?_⟩
  have hagrees := replay_agrees log
  exact (hagrees.2.2.2.2.2.2.2 found hfound).trans (by decide)

end SymbolTable

end ScopeLang
