import Lisplet.Proofs.Reader.Grammar

/-! What reading does to a reader.  The table only gains names and the supply only moves on, so a
datum that is read is made of new pairs and of symbols of the table. -/

namespace Lisplet

namespace SymbolTable

theorem lookup_eq_some_iff {t : SymbolTable} {name : String} {s : Symbol} :
    t.lookup name = some s ↔ ∃ slot, t.names.idxOf? name = some slot ∧ s = ⟨t.id, slot, name⟩ := by
  rw [lookup, Option.map_eq_some_iff]
  simp only [eq_comm (a := s)]

theorem name_of_lookup {t : SymbolTable} {name : String} {s : Symbol}
    (h : t.lookup name = some s) : s.name = name := by
  obtain ⟨slot, -, rfl⟩ := lookup_eq_some_iff.1 h
  rfl

/-- A name keeps its place when others are interned. -/
theorem lookup_intern_of_lookup {t : SymbolTable} {name : String} {s : Symbol}
    (h : t.lookup name = some s) (other : String) : (t.intern other).2.lookup name = some s := by
  obtain ⟨slot, hslot, rfl⟩ := lookup_eq_some_iff.1 h
  obtain ⟨hlt, hget, hfirst⟩ := List.idxOf?_eq_some_iff.1 hslot
  refine lookup_eq_some_iff.2 ⟨slot, ?_, by rw [intern_snd_id]⟩
  rw [intern_snd_names]
  split
  · exact hslot
  · refine List.idxOf?_eq_some_iff.2 ⟨by simp; omega, ?_, fun j hj => ?_⟩
    · rw [List.getElem_append_left hlt, hget]
    · rw [List.getElem_append_left (by omega)]
      exact hfirst j hj

/-- A table has one symbol for each of its places. -/
theorem eq_of_same {t : SymbolTable} {a b : Symbol} (ha : t.lookup a.name = some a)
    (hb : t.lookup b.name = some b) (h : a.same b = true) : a = b := by
  obtain ⟨i, hi, ha⟩ := lookup_eq_some_iff.1 ha
  obtain ⟨j, hj, hb⟩ := lookup_eq_some_iff.1 hb
  obtain ⟨_, hgetA, -⟩ := List.idxOf?_eq_some_iff.1 hi
  obtain ⟨_, hgetB, -⟩ := List.idxOf?_eq_some_iff.1 hj
  have hslot : a.slot = b.slot := by simpa using (Bool.and_eq_true_iff.1 h).2
  obtain rfl : i = j := by rw [ha, hb] at hslot; exact hslot
  rw [ha, hb, ← hgetA, ← hgetB]

end SymbolTable

/-- An identity that the supply has still to hand out. -/
def Supply.Ahead (s : Supply) (i : Ident) : Prop := i.owner = s.owner ∧ s.next ≤ i.serial

instance (s : Supply) (i : Ident) : Decidable (s.Ahead i) := inferInstanceAs (Decidable (_ ∧ _))

namespace Value

/-- The identities of the pairs of a value. -/
def pairIds : Value → List Ident
  | .pair i head tail => i :: head.pairIds ++ tail.pairIds
  | _ => []

/-- The symbols in a value. -/
def symbols : Value → List Symbol
  | .pair _ head tail => head.symbols ++ tail.symbols
  | .symbol s => [s]
  | _ => []

theorem ahead_list {p s : Supply} {vs : List Value} (howner : s.owner = p.owner)
    (hnext : p.next ≤ s.next) (hvs : ∀ v ∈ vs, ∀ i ∈ v.pairIds, p.Ahead i) :
    ∀ i ∈ (list vs s).1.pairIds, p.Ahead i := by
  induction vs with
  | nil => intro i hi; cases hi
  | cons v vs ih =>
    intro i hi
    simp only [list_cons, pairIds, List.cons_append, List.mem_cons, List.mem_append] at hi
    rcases hi with rfl | hi | hi
    · simp only [list_snd, Supply.ident, Supply.Ahead, howner, true_and]
      omega
    · exact hvs v List.mem_cons_self i hi
    · exact ih (fun w hw => hvs w (List.mem_cons_of_mem v hw)) i hi

theorem ahead_wrap {p s : Supply} {datum : Value} (howner : s.owner = p.owner)
    (hnext : p.next ≤ s.next) (hdatum : ∀ i ∈ datum.pairIds, p.Ahead i) (head : Symbol) :
    ∀ i ∈ (wrap head datum s).1.pairIds, p.Ahead i :=
  ahead_list howner hnext (List.forall_mem_cons.2 ⟨nofun, List.forall_mem_singleton.2 hdatum⟩)

theorem symbols_list (vs : List Value) (s : Supply) :
    (list vs s).1.symbols = vs.flatMap symbols := by
  induction vs with
  | nil => rfl
  | cons v vs ih => simp only [list_cons, symbols, ih, List.flatMap_cons]

end Value

namespace Reader

/-- The reserved symbols are those of the table. -/
def Reserved (r : Reader) : Prop := ∀ kind, r.table.lookup kind.name = some (r.quotes.get kind)

theorem reserved_ofTable (table : SymbolTable) (supply : Supply) :
    (ofTable table supply).Reserved := by
  intro kind
  simp only [ofTable, QuoteSymbols.intern]
  cases kind with
  | quote =>
    iterate 3 refine SymbolTable.lookup_intern_of_lookup ?_ _
    exact SymbolTable.lookup_intern_self _ _
  | quasiquote =>
    iterate 2 refine SymbolTable.lookup_intern_of_lookup ?_ _
    exact SymbolTable.lookup_intern_self _ _
  | unquote => exact SymbolTable.lookup_intern_of_lookup (SymbolTable.lookup_intern_self _ _) _
  | unquoteSplicing => exact SymbolTable.lookup_intern_self _ _

/-- The second reader has the names of the first and has handed out what the first has. -/
structure Extends (r r' : Reader) : Prop where
  quotes : r'.quotes = r.quotes
  factories : r'.factories = r.factories
  lookup : ∀ name s, r.table.lookup name = some s → r'.table.lookup name = some s
  owner : r'.supply.owner = r.supply.owner
  next : r.supply.next ≤ r'.supply.next

theorem Extends.refl (r : Reader) : Extends r r :=
  ⟨rfl, rfl, fun _ _ h => h, rfl, Nat.le_refl _⟩

theorem Extends.trans {r r' r'' : Reader} (h : Extends r r') (h' : Extends r' r'') :
    Extends r r'' :=
  ⟨h'.quotes.trans h.quotes, h'.factories.trans h.factories,
    fun name s hs => h'.lookup name s (h.lookup name s hs), h'.owner.trans h.owner,
    Nat.le_trans h.next h'.next⟩

theorem Extends.reserved {r r' : Reader} (h : Extends r r') (hr : r.Reserved) : r'.Reserved := by
  intro kind
  rw [h.quotes]
  exact h.lookup _ _ (hr kind)

theorem Extends.ahead {r r' : Reader} (h : Extends r r') {i : Ident}
    (hi : r'.supply.Ahead i) : r.supply.Ahead i :=
  ⟨hi.1.trans h.owner, Nat.le_trans h.next hi.2⟩

theorem Extends.supply {r r' : Reader} (h : Extends r r') (count : Nat) :
    Extends r { r' with supply := { r'.supply with next := r'.supply.next + count } } :=
  ⟨h.quotes, h.factories, h.lookup, h.owner, Nat.le_add_right_of_le h.next⟩

theorem atom_extends {r : Reader} (hf : r.factories = []) (text : String) :
    Extends r (r.atom text).2 := by
  have hclaims : r.factories.findSome? (· text) = none := by rw [hf]; rfl
  simp only [atom, hclaims]
  split
  · exact .refl r
  · exact ⟨rfl, rfl, fun name s h => SymbolTable.lookup_intern_of_lookup h text, rfl,
      Nat.le_refl _⟩

end Reader

namespace Grammar

mutual

theorem Datum.extends {r r' : Reader} {ts : List Token} {v : Value} (hf : r.factories = []) :
    Datum r ts v r' → r.Extends r'
  | .atom _ text => Reader.atom_extends hf text
  | .string _ _ => (Reader.Extends.refl r).supply 1
  | .list items value => by
    obtain rfl := congrArg Prod.snd value
    rw [Value.list_snd]
    exact (items.extends hf).supply _
  | .quote kind datum value => by
    obtain rfl := congrArg Prod.snd value
    exact (datum.extends hf).supply 2

theorem Series.extends {r r' : Reader} {ts : List Token} {vs : List Value} (hf : r.factories = []) :
    Series r ts vs r' → r.Extends r'
  | .nil _ => .refl r
  | .cons head tail =>
    have hhead := head.extends hf
    hhead.trans (tail.extends (hhead.factories.trans hf))

end

mutual

/-- The pairs of a datum are new. -/
theorem Datum.ahead {r r' : Reader} {ts : List Token} {v : Value} (hf : r.factories = []) :
    Datum r ts v r' → ∀ i ∈ v.pairIds, r.supply.Ahead i
  | .atom _ text => by
    simp only [Reader.atom, hf, List.findSome?_nil]
    split <;> simp [Value.pairIds]
  | .string _ _ => by simp [Value.pairIds]
  | .list items value => by
    have hitems := items.ahead hf
    have hext := items.extends hf
    have hlist := Value.ahead_list hext.owner hext.next hitems
    rwa [value] at hlist
  | @Datum.quote _ r' _ _ _ _ kind datum value => by
    have hdatum := datum.ahead hf
    have hext := datum.extends hf
    have hform := Value.ahead_wrap hext.owner hext.next hdatum (r'.quotes.get kind)
    rwa [value] at hform

theorem Series.ahead {r r' : Reader} {ts : List Token} {vs : List Value} (hf : r.factories = []) :
    Series r ts vs r' → ∀ v ∈ vs, ∀ i ∈ v.pairIds, r.supply.Ahead i
  | .nil _ => nofun
  | .cons head tail => by
    have hext := head.extends hf
    have htail := tail.ahead (hext.factories.trans hf)
    exact List.forall_mem_cons.2 ⟨head.ahead hf, fun v hv i hi => hext.ahead (htail v hv i hi)⟩

end

mutual

/-- The symbols of a datum are those of the table. -/
theorem Datum.symbols {r r' : Reader} {ts : List Token} {v : Value} (hf : r.factories = [])
    (hr : r.Reserved) : Datum r ts v r' → ∀ s ∈ v.symbols, r'.table.lookup s.name = some s
  | .atom _ text => by
    simp only [Reader.atom, hf, List.findSome?_nil]
    split
    · simp [Value.symbols]
    · simp [Value.symbols, SymbolTable.lookup_intern_self]
  | .string _ _ => by simp [Value.symbols]
  | .list items value => by
    have hitems := items.symbols hf hr
    obtain rfl := congrArg Prod.fst value
    intro s hs
    rw [Value.symbols_list] at hs
    obtain ⟨v, hv, hs⟩ := List.mem_flatMap.1 hs
    exact hitems v hv s hs
  | .quote kind datum value => by
    have hdatum := datum.symbols hf hr
    have hkind := (datum.extends hf).reserved hr kind
    obtain rfl := (Prod.mk.inj value).1
    intro s hs
    simp only [Value.symbols, List.singleton_append, List.append_nil, List.mem_cons] at hs
    rcases hs with rfl | hs
    · rwa [SymbolTable.name_of_lookup hkind]
    · exact hdatum s hs

theorem Series.symbols {r r' : Reader} {ts : List Token} {vs : List Value} (hf : r.factories = [])
    (hr : r.Reserved) :
    Series r ts vs r' → ∀ v ∈ vs, ∀ s ∈ v.symbols, r'.table.lookup s.name = some s
  | .nil _ => nofun
  | .cons head tail => by
    have hext := head.extends hf
    have hf' := hext.factories.trans hf
    have hhead := head.symbols hf hr
    exact List.forall_mem_cons.2
      ⟨fun s hs => (tail.extends hf').lookup _ _ (hhead s hs),
        tail.symbols hf' (hext.reserved hr)⟩

end

end Grammar

end Lisplet
