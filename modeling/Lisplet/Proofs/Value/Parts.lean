import Lisplet.Proofs.Reader.Growth

/-! The parts of a value, at every depth and also inside the bodies of procedures, and what can be
asked of each of them.  An `Invariant` holds of the symbols of a symbol table, of pairs whose tail is
a list and of every other value that is no pair; it may depend on the table, which gains names as a
program is read. -/

namespace Lisplet

/-- The second table has the names of the first in the same places. -/
def SymbolTable.Extends (t t' : SymbolTable) : Prop :=
  ∀ name s, t.lookup name = some s → t'.lookup name = some s

namespace SymbolTable

theorem Extends.refl (t : SymbolTable) : t.Extends t := fun _ _ h => h

theorem Extends.trans {t t' t'' : SymbolTable} (h : t.Extends t') (h' : t'.Extends t'') :
    t.Extends t'' := fun name s hs => h' name s (h name s hs)

theorem extends_intern (t : SymbolTable) (name : String) : t.Extends (t.intern name).2 :=
  fun _ _ h => lookup_intern_of_lookup h name

end SymbolTable

/-- Something to ask of a single value, however it is made. -/
structure Invariant (N : SymbolTable → Value → Prop) : Prop where
  later : ∀ {t t' v}, t.Extends t' → N t v → N t' v
  symbol : ∀ {t s}, t.lookup s.name = some s → N t (.symbol s)
  pair : ∀ {t id head tail}, tail.isList = true → N t (.pair id head tail)
  leaf : ∀ {t v}, v.isPair = false → v.symbol? = none → N t v

namespace Value

/-- A value, its head and tail or the body of the procedure that it is, and their parts. -/
def parts : Value → List Value
  | .pair id head tail => .pair id head tail :: (head.parts ++ tail.parts)
  | .lambda id formals body home => .lambda id formals body home :: body.parts
  | .macroProc id formals body => .macroProc id formals body :: body.parts
  | v => [v]

/-- The property holds of each part of the value. -/
def All (N : Value → Prop) (v : Value) : Prop := ∀ w ∈ v.parts, N w

theorem mem_parts_self (v : Value) : v ∈ v.parts := by
  cases v <;> exact List.mem_cons_self

theorem parts_trans {u v w : Value} (hu : u ∈ v.parts) (hv : v ∈ w.parts) : u ∈ w.parts := by
  induction w with
  | pair id head tail ihHead ihTail =>
    rcases List.mem_cons.1 hv with rfl | hv
    · exact hu
    · rcases List.mem_append.1 hv with hv | hv
      · exact List.mem_cons_of_mem _ (List.mem_append_left _ (ihHead hv))
      · exact List.mem_cons_of_mem _ (List.mem_append_right _ (ihTail hv))
  | lambda id formals body home ih =>
    rcases List.mem_cons.1 hv with rfl | hv
    · exact hu
    · exact List.mem_cons_of_mem _ (ih hv)
  | macroProc id formals body ih =>
    rcases List.mem_cons.1 hv with rfl | hv
    · exact hu
    · exact List.mem_cons_of_mem _ (ih hv)
  | _ =>
    obtain rfl := List.mem_singleton.1 hv
    exact hu

section

variable {N : Value → Prop}

theorem All.self {v : Value} (h : v.All N) : N v := h v v.mem_parts_self

theorem All.part {v w : Value} (h : w.All N) (hv : v ∈ w.parts) : v.All N :=
  fun _ hu => h _ (parts_trans hu hv)

theorem all_pair_iff {id : Ident} {head tail : Value} :
    (pair id head tail).All N ↔ N (.pair id head tail) ∧ head.All N ∧ tail.All N := by
  simp only [All, parts, List.forall_mem_cons, List.forall_mem_append]

theorem all_lambda_iff {id : Ident} {formals : Formals} {body : Value} {home : FrameId} :
    (lambda id formals body home).All N ↔ N (.lambda id formals body home) ∧ body.All N := by
  simp only [All, parts, List.forall_mem_cons]

theorem all_macroProc_iff {id : Ident} {formals : Formals} {body : Value} :
    (macroProc id formals body).All N ↔ N (.macroProc id formals body) ∧ body.All N := by
  simp only [All, parts, List.forall_mem_cons]

end

/-! ### What is made of values with an invariant -/

variable {N : SymbolTable → Value → Prop} (hN : Invariant N) {t : SymbolTable}

include hN

theorem All.later {t' : SymbolTable} {v : Value} (h : v.All (N t)) (ht : t.Extends t') :
    v.All (N t') := fun w hw => hN.later ht (h w hw)

theorem all_leaf {v : Value} (hparts : v.parts = [v]) (hpair : v.isPair = false)
    (hsymbol : v.symbol? = none) : v.All (N t) := by
  rw [All, hparts]
  exact List.forall_mem_singleton.2 (hN.leaf hpair hsymbol)

theorem all_symbol {s : Symbol} {name : String} (h : t.lookup name = some s) :
    (symbol s).All (N t) := by
  refine List.forall_mem_singleton.2 (hN.symbol ?_)
  rwa [SymbolTable.name_of_lookup h]

theorem all_list {items : List Value} (hitems : ∀ v ∈ items, v.All (N t)) (s : Supply) :
    (list items s).1.All (N t) := by
  induction items with
  | nil => exact all_leaf hN rfl rfl rfl
  | cons v vs ih =>
    obtain ⟨hv, hvs⟩ := List.forall_mem_cons.1 hitems
    rw [list_cons]
    exact all_pair_iff.2 ⟨hN.pair (isList_list vs s), hv, ih hvs⟩

end Value

end Lisplet
