-- SUMMARY: Finite maps from names, newest entry first.

/-! # Maps from names

A `NameMap` lists its entries with the newest one first. Inserting under a name
that is already there replaces the entry and makes it the newest, so a name
never occurs twice and the entries, read backwards, are in the order in which
they were last inserted.
-/

namespace ScopeLang

/-- A finite map from names. -/
structure NameMap (α : Type) where
  entries : List (String × α)
  deriving Repr

namespace NameMap

variable {α : Type}

/-- The map without entries. -/
def empty : NameMap α := ⟨[]⟩

instance : Inhabited (NameMap α) := ⟨empty⟩

/-- Add an entry, in place of an older one of the same name. -/
def insert (m : NameMap α) (name : String) (value : α) : NameMap α :=
  ⟨(name, value) :: m.entries.filter (·.1 != name)⟩

/-- The entry of a name. -/
def get? (m : NameMap α) (name : String) : Option α :=
  m.entries.lookup name

/-- Whether a name has an entry. -/
def contains (m : NameMap α) (name : String) : Bool :=
  (m.get? name).isSome

/-- How many names have an entry. -/
def size (m : NameMap α) : Nat :=
  m.entries.length

/-- The names that have an entry. -/
def names (m : NameMap α) : List String :=
  m.entries.map (·.1)

/-- The entries in the order of their insertion. -/
def inOrder (m : NameMap α) : List (String × α) :=
  m.entries.reverse

/-- The entries by name, in the order of code points. -/
def sorted (m : NameMap α) : List (String × α) :=
  m.entries.mergeSort fun a b => decide (a.1 ≤ b.1)

/-! ## Looking up -/

@[simp] theorem get?_empty (name : String) : (empty : NameMap α).get? name = none := rfl

theorem lookup_filter_ne (entries : List (String × α)) {a b : String} (h : a ≠ b) :
    (entries.filter (·.1 != b)).lookup a = entries.lookup a := by
  induction entries with
  | nil => rfl
  | cons e es ih =>
    obtain ⟨k, v⟩ := e
    by_cases hk : k = b
    · subst hk
      have ha : (a == k) = false := by simpa using h
      simp [List.lookup_cons, ha, ih]
    · by_cases hka : a = k
      · subst hka
        simp [hk]
      · have ha : (a == k) = false := by simpa using hka
        simp [hk, List.lookup_cons, ha, ih]

@[simp] theorem get?_insert_self (m : NameMap α) (name : String) (value : α) :
    (m.insert name value).get? name = some value := by
  simp [insert, get?]

theorem get?_insert_of_ne (m : NameMap α) {a b : String} (value : α) (h : a ≠ b) :
    (m.insert b value).get? a = m.get? a := by
  have hab : (a == b) = false := by simpa using h
  simp [insert, get?, List.lookup_cons, hab, lookup_filter_ne m.entries h]

end NameMap

end ScopeLang
