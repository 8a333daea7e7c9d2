import Lisplet.Proofs.Reader.Descent
import Lisplet.Proofs.Value.Data

/-! Reading a printed value.  The value comes back, but for the infinite numbers, whose words read as
symbols, and for the commas that take the at sign of a symbol. -/

namespace Lisplet

open Token Grammar

/-- The text of the number denotes an equal number. -/
def Number.readsBack (n : Float) : Bool :=
  (Number.ofNumeral? (Number.chars n)).any (· == n)

namespace Reader

theorem atom_number {r : Reader} (hf : r.factories = []) {text : String} {n : Float}
    (h : Number.ofAtom? text.toList = some n) : r.atom text = (.number n, r) := by
  simp [atom, hf, h]

theorem atom_symbol {r : Reader} (hf : r.factories = []) {text : String}
    (h : Number.ofAtom? text.toList = none) :
    r.atom text = (.symbol (r.table.intern text).1, { r with table := (r.table.intern text).2 }) := by
  simp [atom, hf, h]

end Reader

namespace Value

theorem Plain.mono {t t' : SymbolTable} {v : Value}
    (h : ∀ name s, t.lookup name = some s → t'.lookup name = some s) (hv : v.Plain t) :
    v.Plain t' := by
  induction v with
  | pair i head tail ihHead ihTail => exact ⟨ihHead hv.1, ihTail hv.2.1, hv.2.2⟩
  | symbol s => exact ⟨h _ _ hv.1, hv.2⟩
  | _ => exact hv

theorem Plain.symbols {t : SymbolTable} {v : Value} (hv : v.Plain t) :
    ∀ s ∈ v.symbols, t.lookup s.name = some s := by
  induction v with
  | pair i head tail ihHead ihTail =>
    intro s hs
    rcases List.mem_append.1 hs with hs | hs
    · exact ihHead hv.1 s hs
    · exact ihTail hv.2.1 s hs
  | symbol x =>
    intro s hs
    obtain rfl := List.mem_singleton.1 hs
    exact hv.1
  | _ => exact nofun

/-- A new list is equal to an old one if its elements are. -/
theorem equal_list_cons {s : Supply} {j : Ident} (hj : ¬ s.Ahead j) (w : Value)
    (ws : List Value) (head tail : Value) :
    (list (w :: ws) s).1.equal (.pair j head tail) = true ↔
      w.equal head = true ∧ (list ws s).1.equal tail = true := by
  rw [list_cons]
  refine equal_pair_iff fun hij => hj (hij ▸ ?_)
  simp [list_snd, Supply.Ahead, Supply.ident]

theorem equal_wrap_iff {s : Supply} {i j : Ident} (hi : ¬ s.Ahead i) (hj : ¬ s.Ahead j)
    (x y : Symbol) (w datum : Value) :
    (wrap x w s).1.equal (.pair i (.symbol y) (.pair j datum .nil)) = true ↔
      x.same y = true ∧ w.equal datum = true := by
  refine (equal_list_cons hi _ _ _ _).trans (and_congr Iff.rfl ?_)
  refine (equal_list_cons hj _ _ _ _).trans ?_
  simp [equal]

/-- A reader with no factories, and a value of its table whose pairs are none of those that the
reader has still to make. -/
structure Ready (r : Reader) (v : Value) : Prop where
  factories : r.factories = []
  reserved : r.Reserved
  plain : v.Plain r.table
  old : ∀ i ∈ v.pairIds, ¬ r.supply.Ahead i

theorem Ready.pair {r : Reader} {i : Ident} {head tail : Value} (h : Ready r (.pair i head tail)) :
    Ready r head ∧ Ready r tail ∧ tail.isList = true ∧ ¬ r.supply.Ahead i := by
  obtain ⟨hf, hr, ⟨hhead, htail, hlist⟩, hold⟩ := h
  simp only [pairIds, List.cons_append, List.mem_cons, List.mem_append] at hold
  exact ⟨⟨hf, hr, hhead, fun x hx => hold x (.inr (.inl hx))⟩,
    ⟨hf, hr, htail, fun x hx => hold x (.inr (.inr hx))⟩, hlist, hold i (.inl rfl)⟩

theorem Ready.extends {r r' : Reader} {v : Value} (h : Ready r v) (he : r.Extends r') :
    Ready r' v :=
  ⟨he.factories.trans h.factories, he.reserved h.reserved, h.plain.mono he.lookup,
    fun i hi ha => h.old i hi (he.ahead ha)⟩

/-- Neither a comma in front of an at sign nor a number that its text does not denote. -/
def Restorable (v : Value) : Prop :=
  v.isGlued = false ∧ ∀ n, v = .number n → Number.isInfinite n = false → Number.readsBack n = true

theorem reread_leaf {r : Reader} {v : Value} (hleaf : v.isPair = false) (hready : Ready r v)
    (h : Restorable v) :
    ∃ w r', Datum r v.tokens w r' ∧ (w.equal v = true ↔ v.isInfinite = false) := by
  obtain ⟨hf, -, hplain, -⟩ := hready
  cases v with
  | nil => exact ⟨.nil, r, .list (.nil r) rfl, by simp [equal, isInfinite]⟩
  | pair => cases hleaf
  | symbol s =>
    have hatom := Reader.atom_symbol hf hplain.2.2.2
    rw [SymbolTable.intern_of_lookup hplain.1] at hatom
    refine ⟨_, _, .atom r s.name, ?_⟩
    rw [hatom]
    simp [equal, Symbol.same, isInfinite]
  | number n =>
    have htext := Number.ofAtom?_chars hplain
    cases hinf : Number.isInfinite n with
    | true =>
      -- The word for an infinite number does not look like a numeral and is read as a symbol.
      rw [hinf, if_pos rfl, ← String.toList_ofList (l := Number.chars n)] at htext
      refine ⟨_, _, .atom r _, ?_⟩
      rw [Reader.atom_symbol hf htext]
      simp [equal, sameProcedure, procedureId?, isInfinite, hinf]
    | false =>
      obtain ⟨m, hm, hmn⟩ := (Option.any_eq_true _ _).1 (h.2 n rfl hinf)
      rw [hinf, if_neg (by decide), hm, ← String.toList_ofList (l := Number.chars n)] at htext
      refine ⟨_, _, .atom r _, ?_⟩
      rw [Reader.atom_number hf htext]
      simp [equal, hmn, isInfinite, hinf]
  | string id text => exact ⟨_, _, .string r text, by simp [equal, isInfinite]⟩
  | _ => exact hplain.elim

/-- The printed form is one datum, which is equal to the value if and only if there is no infinite
number in it. -/
def Rereads (v : Value) : Prop :=
  ∀ r, Ready r v → (∀ u ∈ v.data, u.Restorable) →
    ∃ w r', Datum r v.tokens w r' ∧ (w.equal v = true ↔ ∀ u ∈ v.data, u.isInfinite = false)

/-- The printed form of the rest of a list is datums, of which any supply makes a list that is equal
to the rest if and only if there is no infinite number in it. -/
def TailRereads (v : Value) : Prop :=
  ∀ r, Ready r v → v.isList = true → (∀ u ∈ v.inner, u.Restorable) →
    ∃ ts ws r', v.tailTokens = ts ++ [.closeList] ∧ Series r ts ws r' ∧
      ∀ s : Supply, (∀ i ∈ v.pairIds, ¬ s.Ahead i) →
        ((list ws s).1.equal v = true ↔ ∀ u ∈ v.inner, u.isInfinite = false)

theorem rereads_leaf {v : Value} (hleaf : v.isPair = false) : v.Rereads := by
  intro r hready h
  have hdata : v.data = [v] := by
    cases v with
    | pair => cases hleaf
    | _ => rfl
  simp only [hdata, List.forall_mem_singleton] at h ⊢
  exact reread_leaf hleaf hready h

theorem Rereads.quoted {i j : Ident} {s : Symbol} {datum : Value} {kind : QuoteKind}
    (hkind : QuoteKind.ofName? s.name = some kind) (hdatum : datum.Rereads) :
    (pair i (.symbol s) (.pair j datum .nil)).Rereads := by
  intro r hready h
  obtain ⟨hhead, htail, -, hi⟩ := hready.pair
  obtain ⟨hready', -, -, hj⟩ := htail.pair
  rw [data_quoted, List.forall_mem_cons, List.forall_mem_cons] at h
  obtain ⟨hform, -, hrest⟩ := h
  obtain ⟨w, r', hread, hequal⟩ := hdatum r hready' hrest
  have hfree : ∀ x rest, kind = .unquote → datum = .symbol x → x.name.toList ≠ '@' :: rest := by
    intro x rest hk hx hname
    have hglued := (isGlued_quoted i j hkind).2 ⟨hk, x, rest, hx, hname⟩
    exact absurd (hform.1.symm.trans hglued) (by decide)
  rw [tokens_quoted hkind, markTokens_of_ne hfree]
  have hext := hread.extends hready.factories
  refine ⟨(wrap (r'.quotes.get kind) w r'.supply).1, _, .quote kind hread rfl, ?_⟩
  -- The reserved symbol that the mark stands for is the one that heads the value.
  have hquote : r'.quotes.get kind = s := by
    have hreserved := hext.reserved hready.reserved kind
    rw [QuoteKind.name_of_ofName? hkind, hext.lookup _ _ hhead.plain.1] at hreserved
    exact (Option.some.inj hreserved).symm
  rw [equal_wrap_iff (fun ha => hi (hext.ahead ha)) (fun ha => hj (hext.ahead ha)), hquote,
    hequal, data_quoted, List.forall_mem_cons, List.forall_mem_cons]
  simp [Symbol.same, isInfinite]

theorem tailRereads_leaf {v : Value} (hleaf : v.isPair = false) : v.TailRereads := by
  intro r _ hlist _
  cases v with
  | nil => exact ⟨[], [], r, rfl, .nil r, fun _ _ => by simp [equal, inner]⟩
  | pair => cases hleaf
  | _ => cases hlist

theorem TailRereads.cons {i : Ident} {head tail : Value} (hhead : head.Rereads)
    (htail : tail.TailRereads) : (pair i head tail).TailRereads := by
  intro r hready _ h
  obtain ⟨hreadyHead, hreadyTail, hlist, -⟩ := hready.pair
  rw [inner, ← data, List.forall_mem_append] at h
  obtain ⟨w, r₁, hread, hequal⟩ := hhead r hreadyHead h.1
  -- The rest is read with the names and the identities that the head has left behind.
  have hext := hread.extends hready.factories
  obtain ⟨ts, ws, r₂, htokens, hseries, hequals⟩ := htail r₁ (hreadyTail.extends hext) hlist h.2
  refine ⟨head.tokens ++ ts, w :: ws, r₂, ?_, .cons hread hseries, fun s hs => ?_⟩
  · rw [tailTokens, htokens, List.append_assoc]
  · simp only [pairIds, List.cons_append, List.forall_mem_cons, List.forall_mem_append] at hs
    rw [equal_list_cons hs.1, hequal, hequals s hs.2.2, inner, ← data, List.forall_mem_append]

theorem TailRereads.list {i : Ident} {head tail : Value}
    (hform : (pair i head tail).quoteForm? = none) (h : (pair i head tail).TailRereads) :
    (pair i head tail).Rereads := by
  intro r hready hrest
  rw [data, List.forall_mem_cons] at hrest
  obtain ⟨ts, ws, r', htokens, hseries, hequals⟩ := h r hready rfl hrest.2
  have hext := hseries.extends hready.factories
  rw [tokens_list hform, htokens]
  refine ⟨(Value.list ws r'.supply).1, _, .list hseries rfl, ?_⟩
  rw [hequals _ (hready.extends hext).old, data, List.forall_mem_cons]
  simp [isInfinite]

theorem rereads_and_tail (v : Value) : v.Rereads ∧ v.TailRereads := by
  refine printed_induction (P := Rereads) (Q := TailRereads) ?_ ?_ ?_ ?_ ?_ v
  · exact fun v => rereads_leaf
  · exact fun i s j datum kind => Rereads.quoted
  · exact fun i head tail hform hhead htail => (TailRereads.cons hhead htail).list hform
  · exact fun v => tailRereads_leaf
  · exact fun i head tail => TailRereads.cons

/-- What is read in place of an equal value has no comma in front of an at sign. -/
theorem not_isGlued_of_equal {r r' : Reader} {v w : Value} (hready : Ready r v)
    (hread : Datum r v.tokens w r') (hequal : w.equal v = true) :
    ∀ u ∈ v.data, u.isGlued = false := by
  obtain ⟨hf, hr, hplain, hold⟩ := hready
  have hext := hread.extends hf
  have hapart : Apart r'.table w v :=
    ⟨fun i hi hiv => hold i hiv (hread.ahead hf i hi), hread.symbols hf hr,
      (hplain.mono hext.lookup).symbols⟩
  -- The marks in the text are at most the splicing forms of `w`, of which `v` has as many.
  obtain ⟨hsplice, hsplices⟩ := splices_of_equal hapart hequal
  have hmade := hread.count_le fun kind => SymbolTable.name_of_lookup (hr kind)
  have hwritten : v.Tallies := (tallies_and_tail v).1
  rw [Tallies] at hwritten
  have hcount : w.data.countP isSplice = v.data.countP isSplice := by
    simp only [data, List.countP_cons, hsplice, hsplices]
  have hnone : v.data.countP isGlued = 0 := by omega
  intro u hu
  simpa using List.countP_eq_zero.1 hnone u hu

/-- Reading the printed form gives the value back if and only if no infinite number and no comma in
front of an at sign is in it. -/
theorem readAll_inspect_iff {r : Reader} {v : Value} (hclean : r.isClean = true)
    (hready : Ready r v)
    (hnumber : ∀ n, .number n ∈ v.data → Number.isInfinite n = false → Number.readsBack n = true) :
    (∃ w r', r.readAll v.inspect = (.ok [w], r') ∧ w.equal v = true) ↔
      ∀ u ∈ v.data, u.isInfinite = false ∧ u.isGlued = false := by
  simp only [Reader.isClean, Bool.and_eq_true, List.isEmpty_iff, Option.isNone_iff_eq_none] at hclean
  obtain ⟨⟨hstack, hpending⟩, -⟩ := hclean
  obtain ⟨htokens, hopen⟩ := sequence_inspect hready.plain
  have hread : ∀ w r', r.readAll v.inspect = (.ok [w], r') ↔ Datum r v.tokens w r' := by
    intro w r'
    rw [Reader.readAll_eq_ok_iff hstack hpending, htokens]
    exact ⟨fun h => h.2.datum, fun h => ⟨hopen, .single h⟩⟩
  constructor
  · rintro ⟨w, r', hok, hequal⟩
    have hglued := not_isGlued_of_equal hready ((hread w r').1 hok) hequal
    obtain ⟨w', r'', hdatum, hiff⟩ := (rereads_and_tail v).1 r hready fun u hu =>
      ⟨hglued u hu, fun n hn => hnumber n (hn ▸ hu)⟩
    -- Reading is a function, so what was read is what the value rereads as.
    have hsame : w = w' := by
      have hok' := (hread w' r'').2 hdatum
      rw [hok] at hok'
      simpa using congrArg Prod.fst hok'
    exact fun u hu => ⟨hiff.1 (hsame ▸ hequal) u hu, hglued u hu⟩
  · intro h
    obtain ⟨w, r', hdatum, hiff⟩ := (rereads_and_tail v).1 r hready fun u hu =>
      ⟨(h u hu).2, fun n hn => hnumber n (hn ▸ hu)⟩
    exact ⟨w, r', (hread w r').2 hdatum, hiff.2 fun u hu => (h u hu).1⟩

/-- A list of a quote form, a text with a quote and a line end in it, a number, and a splicing form
whose symbol begins with an at sign. -/
def assorted : Value :=
  .pair ⟨1, 0⟩ (.pair ⟨1, 1⟩ (.symbol ⟨0, 2, "quote"⟩) (.pair ⟨1, 2⟩ (.symbol ⟨0, 0, "a"⟩) .nil))
    (.pair ⟨1, 3⟩ (.string ⟨1, 4⟩ "x\x22\n")
      (.pair ⟨1, 5⟩ (.number (-0.1))
        (.pair ⟨1, 6⟩ (.pair ⟨1, 7⟩ (.symbol ⟨0, 5, "unquote-splicing"⟩)
          (.pair ⟨1, 8⟩ (.symbol ⟨0, 1, "@b"⟩) .nil)) .nil)))

theorem readAll_inspect_assorted :
    ∃ w r', (Reader.ofTable ⟨0, ["a", "@b"]⟩ (.ofOwner 0)).readAll assorted.inspect = (.ok [w], r') ∧
      w.equal assorted = true := by
  have hready : Ready (Reader.ofTable ⟨0, ["a", "@b"]⟩ (.ofOwner 0)) assorted :=
    ⟨rfl, Reader.reserved_ofTable _ _, by decide +kernel, by decide⟩
  refine (readAll_inspect_iff rfl hready ?_).2 (by decide +kernel)
  intro n hn _
  obtain rfl : n = -0.1 := by simpa [assorted, data, inner] using hn
  decide +kernel

end Value

end Lisplet
