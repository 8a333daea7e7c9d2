/-! Symbols and symbol tables.  A table keeps each name once, in the order in which the names came,
and a symbol is a place in a table.  Symbols of different tables are different, whatever their
names. -/

namespace Lisplet

/-- A place in a symbol table, together with the name kept there. -/
structure Symbol where
  table : Nat
  slot : Nat
  name : String
  deriving DecidableEq

/-- Identity of symbols: the same place of the same table. -/
def Symbol.same (a b : Symbol) : Bool := a.table == b.table && a.slot == b.slot

/-- A short description of a symbol. -/
def Symbol.describe (s : Symbol) : String := "Symbol(" ++ s.name ++ ")"

/-- The names of one table; the name in place `i` is the `i`-th that was interned. -/
structure SymbolTable where
  id : Nat
  names : List String

namespace SymbolTable

/-- A table with no names. -/
def empty (id : Nat) : SymbolTable := ⟨id, []⟩

/-- The symbol of a name that the table has, if it has it. -/
def lookup (t : SymbolTable) (name : String) : Option Symbol :=
  (t.names.idxOf? name).map fun slot => ⟨t.id, slot, name⟩

/-- The symbol of a name, which is added in a new place if the table does not have it. -/
def intern (t : SymbolTable) (name : String) : Symbol × SymbolTable :=
  match t.lookup name with
  | some s => (s, t)
  | none => (⟨t.id, t.names.length, name⟩, { t with names := t.names ++ [name] })

/-- The number of names in the table. -/
def count (t : SymbolTable) : Nat := t.names.length

/-- A short description of a table. -/
def describe (t : SymbolTable) : String := "SymbolTable(" ++ toString t.count ++ " symbols)"

/-- Both are states of one table. -/
def same (a b : SymbolTable) : Bool := a.id == b.id

theorem lookup_eq_none_iff {t : SymbolTable} {name : String} :
    t.lookup name = none ↔ name ∉ t.names := by
  simp [lookup]

@[simp] theorem intern_fst_name (t : SymbolTable) (name : String) :
    (t.intern name).1.name = name := by
  unfold intern
  split
  · next s h =>
    obtain ⟨slot, -, rfl⟩ := Option.map_eq_some_iff.1 h
    rfl
  · rfl

@[simp] theorem intern_snd_id (t : SymbolTable) (name : String) : (t.intern name).2.id = t.id := by
  unfold intern
  split <;> rfl

/-- A table that has a name keeps its place for it. -/
theorem intern_of_lookup {t : SymbolTable} {name : String} {s : Symbol}
    (h : t.lookup name = some s) : t.intern name = (s, t) := by
  simp only [intern, h]

/-- Interning adds a name at the end, or nothing. -/
theorem intern_snd_names (t : SymbolTable) (name : String) :
    (t.intern name).2.names = if name ∈ t.names then t.names else t.names ++ [name] := by
  unfold intern
  split
  · next s h =>
    by_cases hm : name ∈ t.names
    · simp [hm]
    · rw [lookup_eq_none_iff.2 hm] at h
      cases h
  · next h => simp [lookup_eq_none_iff.1 h]

/-- A name is found right after it is interned. -/
theorem lookup_intern_self (t : SymbolTable) (name : String) :
    (t.intern name).2.lookup name = some (t.intern name).1 := by
  cases h : t.lookup name with
  | some s => rw [intern_of_lookup h, h]
  | none =>
    have hm := lookup_eq_none_iff.1 h
    have hi : (t.names ++ [name]).idxOf? name = some t.names.length := by
      refine List.idxOf?_eq_some_iff.2 ⟨by simp, by simp, fun j hj he => hm ?_⟩
      rw [List.getElem_append_left hj] at he
      exact he ▸ List.getElem_mem hj
    simp only [intern, h]
    simp [lookup, hi]

end SymbolTable

end Lisplet
