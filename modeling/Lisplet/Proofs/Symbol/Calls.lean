import Lisplet.Proofs.Value.Parts
import Mathlib.Data.Finset.Card
import Mathlib.Logic.Function.Basic

/-! Calls on any number of symbol tables, one after the other.  A name that is interned keeps its
symbol whatever else is interned there or elsewhere, so the answers to two calls are the same symbol
exactly if both calls are about the same name and the same table. -/

namespace Lisplet

namespace SymbolTable

theorem mem_intern_iff (t : SymbolTable) (name other : String) :
    other ∈ (t.intern name).2.names ↔ other ∈ t.names ∨ other = name := by
  rw [intern_snd_names]
  split
  · next hmem => exact ⟨.inl, fun h => h.elim (fun h => h) fun heq => heq ▸ hmem⟩
  · simp

theorem nodup_intern {t : SymbolTable} (h : t.names.Nodup) (name : String) :
    (t.intern name).2.names.Nodup := by
  rw [intern_snd_names]
  split
  · exact h
  · next hmem =>
    refine List.nodup_append.2 ⟨h, by simp, ?_⟩
    rintro a ha b hb rfl
    exact hmem (List.mem_singleton.1 hb ▸ ha)

theorem table_of_lookup {t : SymbolTable} {name : String} {s : Symbol}
    (h : t.lookup name = some s) : s.table = t.id := by
  obtain ⟨slot, -, rfl⟩ := lookup_eq_some_iff.1 h
  rfl

/-- What can be asked of one of many tables. -/
inductive Call where
  | intern (table : Nat) (name : String)
  | lookup (table : Nat) (name : String)

/-- The answer to a call, and the tables afterwards. -/
def Call.run (tables : Nat → SymbolTable) : Call → Option Symbol × (Nat → SymbolTable)
  | .intern i name => (((tables i).intern name).1, Function.update tables i ((tables i).intern name).2)
  | .lookup i name => ((tables i).lookup name, tables)

/-- The answers to some calls in a row, and the tables afterwards. -/
def runAll (tables : Nat → SymbolTable) : List Call → List (Option Symbol) × (Nat → SymbolTable)
  | [] => ([], tables)
  | call :: calls =>
    let (answer, tables) := call.run tables
    let (answers, tables) := runAll tables calls
    (answer :: answers, tables)

/-- The name that a call interns in a table. -/
def Call.interned? (i : Nat) : Call → Option String
  | .intern j name => if i = j then some name else none
  | .lookup _ _ => none

/-- Tables with different identities, each of which has its names once. -/
structure Apart (tables : Nat → SymbolTable) : Prop where
  id : ∀ i, (tables i).id = i
  nodup : ∀ i, (tables i).names.Nodup

theorem apart_empty : Apart empty := ⟨fun _ => rfl, fun _ => List.nodup_nil⟩

variable {tables : Nat → SymbolTable}

/-! ### One call -/

theorem run_apart (h : Apart tables) (call : Call) : Apart (call.run tables).2 := by
  cases call with
  | lookup i name => exact h
  | intern i name =>
    refine ⟨fun j => ?_, fun j => ?_⟩
    · by_cases hj : j = i
      · subst hj
        simp [Call.run, h.id]
      · simp [Call.run, hj, h.id]
    · by_cases hj : j = i
      · subst hj
        simpa [Call.run] using nodup_intern (h.nodup j) name
      · simpa [Call.run, hj] using h.nodup j

theorem run_extends (tables : Nat → SymbolTable) (call : Call) (i : Nat) :
    (tables i).Extends ((call.run tables).2 i) := by
  cases call with
  | lookup j name => exact .refl _
  | intern j name =>
    by_cases hi : i = j
    · subst hi
      simpa [Call.run] using extends_intern (tables i) name
    · simpa [Call.run, hi] using Extends.refl (tables i)

theorem mem_run_iff (tables : Nat → SymbolTable) (call : Call) (i : Nat) (name : String) :
    name ∈ ((call.run tables).2 i).names ↔
      name ∈ (tables i).names ∨ call.interned? i = some name := by
  cases call with
  | lookup j other => simp [Call.run, Call.interned?]
  | intern j other =>
    by_cases hi : i = j
    · subst hi
      simp [Call.run, Call.interned?, mem_intern_iff, eq_comm]
    · simp [Call.run, Call.interned?, hi]

/-! ### Calls in a row -/

theorem runAll_apart (h : Apart tables) (calls : List Call) : Apart (runAll tables calls).2 := by
  induction calls generalizing tables with
  | nil => exact h
  | cons call calls ih => exact ih (run_apart h call)

theorem runAll_extends (tables : Nat → SymbolTable) (calls : List Call) (i : Nat) :
    (tables i).Extends ((runAll tables calls).2 i) := by
  induction calls generalizing tables with
  | nil => exact .refl _
  | cons call calls ih => exact (run_extends tables call i).trans (ih _)

theorem mem_runAll_iff (tables : Nat → SymbolTable) (calls : List Call) (i : Nat) (name : String) :
    name ∈ ((runAll tables calls).2 i).names ↔
      name ∈ (tables i).names ∨ name ∈ calls.filterMap (Call.interned? i) := by
  induction calls generalizing tables with
  | nil => simp [runAll]
  | cons call calls ih =>
    have hcall := mem_run_iff tables call i name
    simp only [runAll, ih, hcall, or_assoc, List.mem_filterMap, List.exists_mem_cons_iff]

/-- A call that interns a name is answered with the symbol that the table has for it in the end. -/
theorem lookup_of_interned (tables : Nat → SymbolTable) {calls : List Call} {p i : Nat}
    {name : String} (h : calls[p]? = some (.intern i name)) :
    ∃ s, (runAll tables calls).1[p]? = some (some s) ∧
      ((runAll tables calls).2 i).lookup name = some s := by
  induction calls generalizing tables p with
  | nil => simp at h
  | cons call calls ih =>
    cases p with
    | succ p => exact ih _ h
    | zero =>
      obtain rfl : call = .intern i name := by simpa using h
      refine ⟨((tables i).intern name).1, rfl, ?_⟩
      refine runAll_extends _ calls i name _ ?_
      simpa [Call.run] using lookup_intern_self (tables i) name

def Call.interns : Call → Bool
  | .intern _ _ => true
  | .lookup _ _ => false

theorem runAll_interns (tables : Nat → SymbolTable) (calls : List Call) :
    (runAll tables (calls.filter Call.interns)).2 = (runAll tables calls).2 := by
  induction calls generalizing tables with
  | nil => rfl
  | cons call calls ih =>
    cases call with
    | intern i name => exact ih _
    | lookup i name => exact ih _

theorem count_runAll (calls : List Call) (i : Nat) :
    ((runAll empty calls).2 i).count = (calls.filterMap (Call.interned? i)).toFinset.card := by
  have hnodup := (runAll_apart apart_empty calls).nodup i
  rw [count, ← List.toFinset_card_of_nodup hnodup]
  congr 1
  ext name
  simp [mem_runAll_iff, empty]

theorem same_runAll_iff {calls : List Call} {p q i j : Nat} {a b : String}
    (hp : calls[p]? = some (.intern i a)) (hq : calls[q]? = some (.intern j b)) :
    ∃ x y, (runAll empty calls).1[p]? = some (some x) ∧
      (runAll empty calls).1[q]? = some (some y) ∧ (x.same y = true ↔ i = j ∧ a = b) := by
  obtain ⟨x, hx, hxlookup⟩ := lookup_of_interned empty hp
  obtain ⟨y, hy, hylookup⟩ := lookup_of_interned empty hq
  have hapart := runAll_apart apart_empty calls
  have hxname := name_of_lookup hxlookup
  have hyname := name_of_lookup hylookup
  refine ⟨x, y, hx, hy, fun h => ?_, ?_⟩
  · have htable : x.table = y.table := by simpa using (Bool.and_eq_true_iff.1 h).1
    rw [table_of_lookup hxlookup, table_of_lookup hylookup, hapart.id, hapart.id] at htable
    subst htable
    rw [← hxname] at hxlookup
    rw [← hyname] at hylookup
    refine ⟨rfl, ?_⟩
    rw [← hxname, ← hyname, eq_of_same hxlookup hylookup h]
  · rintro ⟨rfl, rfl⟩
    rw [Option.some.inj (hxlookup.symm.trans hylookup)]
    simp [Symbol.same]

end SymbolTable

end Lisplet
