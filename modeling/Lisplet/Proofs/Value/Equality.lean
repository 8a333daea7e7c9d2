import Lisplet.Proofs.Number.Equal
import Lisplet.Proofs.Value.Heap
import Lisplet.Value.Equal

/-! The laws of equality in structure.  A pair is equal to itself without a look at what it holds, so
equality is not quite what the structure says: a list that holds what is no number is equal to itself.
In one heap the short cut is sound.  Identical values are equal, equality is symmetric and transitive,
and it fails to be reflexive at what is no number alone; where there is no such part, it is the plain
comparison of heads and tails. -/

namespace Lisplet

namespace Symbol

theorem same_iff {s t : Symbol} : s.same t = true ↔ s.table = t.table ∧ s.slot = t.slot := by
  simp [same]

theorem same_self (s : Symbol) : s.same s = true := same_iff.2 ⟨rfl, rfl⟩

theorem same_symm {s t : Symbol} (h : s.same t = true) : t.same s = true := by
  obtain ⟨htable, hslot⟩ := same_iff.1 h
  exact same_iff.2 ⟨htable.symm, hslot.symm⟩

theorem same_trans {s t u : Symbol} (hst : s.same t = true) (htu : t.same u = true) :
    s.same u = true := by
  obtain ⟨htable, hslot⟩ := same_iff.1 hst
  obtain ⟨htable', hslot'⟩ := same_iff.1 htu
  exact same_iff.2 ⟨htable.trans htable', hslot.trans hslot'⟩

end Symbol

namespace Value

/-- The value is a number that is none. -/
def isNan : Value → Bool
  | .number n => Number.isNan n
  | _ => false

/-- The value is no number or a list that has such a value in it, at any depth. -/
def hasNan : Value → Bool
  | .pair _ head tail => head.hasNan || tail.hasNan
  | v => v.isNan

/-- The pairs of a list, one for each element. -/
def cells : Value → List Value
  | .pair id head tail => .pair id head tail :: tail.cells
  | _ => []

/-- Equal in structure, where pairs are always compared by what they hold. -/
def equalThroughout : Value → Value → Bool
  | .nil, .nil => true
  | .pair _ a b, .pair _ c d => a.equalThroughout c && b.equalThroughout d
  | .symbol s, .symbol t => s.same t
  | .number x, .number y => x == y
  | .string _ s, .string _ t => s == t
  | .extension i _, .extension j _ => i == j
  | v, w => v.sameProcedure w

/-- The laws of equality among some values.  Two of them with the same identity are the same value;
values that are the same object are equal; equality is symmetric and transitive, and holds between a
value and itself unless that is no number; equal lists have as many elements, and elements in the same
place are equal or come after a pair that both lists have in the same place; and for values without any
part that is no number, equality is the comparison throughout and an equivalence. -/
structure EqualityLaws (S : Value → Prop) : Prop where
  one : ∀ {a b i}, S a → S b → a.ident? = some i → b.ident? = some i → a = b
  same : ∀ {a b}, S a → S b → a.same b = true → a.equal b = true
  symm : ∀ {a b}, S a → S b → a.equal b = b.equal a
  trans : ∀ {a b c}, S a → S b → S c → a.equal b = true → b.equal c = true → a.equal c = true
  refl : ∀ {a}, S a → (a.equal a = true ↔ a.isNan = false)
  lists : ∀ {a b}, S a → S b → a.equal b = true → a.length = b.length ∧
    ∀ (i : Nat) (x y : Value), a.elements[i]? = some x → b.elements[i]? = some y →
      x.equal y = true ∨ ∃ j ≤ i, ∃ p, a.cells[j]? = some p ∧ b.cells[j]? = some p
  throughout : ∀ {a b}, S a → S b → a.hasNan = false → a.equal b = a.equalThroughout b
  equivalence : Equivalence fun a b : { v : Value // S v ∧ v.hasNan = false } =>
    a.1.equal b.1 = true

/-- Why two values are equal. -/
inductive Equal : Value → Value → Prop
  | nil : Equal .nil .nil
  | shared (i : Ident) (a b c d : Value) : Equal (.pair i a b) (.pair i c d)
  | pair {i j : Ident} {a b c d : Value} (head : Equal a c) (tail : Equal b d) :
      Equal (.pair i a b) (.pair j c d)
  | symbol {s t : Symbol} (same : s.same t = true) : Equal (.symbol s) (.symbol t)
  | number {x y : Float} (equal : (x == y) = true) : Equal (.number x) (.number y)
  | string (i j : Ident) (text : String) : Equal (.string i text) (.string j text)
  | extension (i : Ident) (e e' : Extension) : Equal (.extension i e) (.extension i e')
  | procedure {v w : Value} {i : Ident} (left : v.procedureId? = some i)
      (right : w.procedureId? = some i) : Equal v w

variable {v w : Value}

theorem sameProcedure_iff :
    v.sameProcedure w = true ↔ ∃ i, v.procedureId? = some i ∧ w.procedureId? = some i := by
  unfold sameProcedure
  split
  · next i j hi hj =>
    rw [beq_iff_eq, hi, hj]
    constructor
    · rintro rfl
      exact ⟨i, rfl, rfl⟩
    · rintro ⟨k, hik, hjk⟩
      exact Option.some.inj (hik.trans hjk.symm)
  · next hnone => exact ⟨nofun, fun ⟨i, hi, hj⟩ => (hnone i i hi hj).elim⟩

theorem mem_parts_of_elements {e : Value} (h : e ∈ v.elements) : e ∈ v.parts := by
  induction v with
  | pair id head tail _ ih =>
    rcases List.mem_cons.1 h with rfl | h
    · exact List.mem_cons_of_mem _ (List.mem_append_left _ (mem_parts_self _))
    · exact List.mem_cons_of_mem _ (List.mem_append_right _ (ih h))
  | _ => cases h

theorem elements_of_procedureId? {i : Ident} (h : v.procedureId? = some i) : v.elements = [] := by
  cases v with
  | pair => cases h
  | _ => rfl

theorem equal_iff : v.equal w = true ↔ Equal v w := by
  constructor
  · intro h
    fun_induction equal v w with
    | case1 => exact .nil
    | case2 i a b j c d ihHead ihTail =>
      rcases Bool.or_eq_true_iff.1 h with h | h
      · obtain rfl := beq_iff_eq.1 h
        exact .shared i a b c d
      · obtain ⟨hhead, htail⟩ := Bool.and_eq_true_iff.1 h
        exact .pair (ihHead hhead) (ihTail htail)
    | case3 s t => exact .symbol h
    | case4 x y => exact .number h
    | case5 i s j t =>
      obtain rfl := beq_iff_eq.1 h
      exact .string i j s
    | case6 i e j e' =>
      obtain rfl := beq_iff_eq.1 h
      exact .extension i e e'
    | case7 v w =>
      obtain ⟨i, hv, hw⟩ := sameProcedure_iff.1 h
      exact .procedure hv hw
  · intro h
    induction h with
    | nil => rfl
    | shared i a b c d => simp [equal]
    | pair _ _ ihHead ihTail => simp [equal, ihHead, ihTail]
    | symbol h => exact h
    | number h => exact h
    | string i j text => simp [equal]
    | extension i e e' => simp [equal]
    | @procedure v w i hv hw =>
      have hsame : v.sameProcedure w = true := sameProcedure_iff.2 ⟨i, hv, hw⟩
      cases v with
      | primitive | lambda | macroProc =>
        cases w with
        | primitive | lambda | macroProc => exact hsame
        | _ => cases hw
      | _ => cases hv

/-! ### Symmetry and reflexivity -/

theorem Equal.symm (h : Equal v w) : Equal w v := by
  induction h with
  | nil => exact .nil
  | shared i a b c d => exact .shared i c d a b
  | pair _ _ ihHead ihTail => exact .pair ihHead ihTail
  | symbol h => exact .symbol (Symbol.same_symm h)
  | number h => exact .number (BEq.symm h)
  | string i j text => exact .string j i text
  | extension i e e' => exact .extension i e' e
  | procedure hv hw => exact .procedure hw hv

theorem equal_comm (v w : Value) : v.equal w = w.equal v :=
  Bool.eq_iff_iff.2 ⟨fun h => equal_iff.2 (equal_iff.1 h).symm,
    fun h => equal_iff.2 (equal_iff.1 h).symm⟩

theorem equal_self_iff : v.equal v = true ↔ v.isNan = false := by
  cases v with
  | number n => exact Number.beq_self_iff
  | symbol s => exact iff_of_true (Symbol.same_self s) rfl
  | nil => exact iff_of_true rfl rfl
  | pair | string | extension => exact iff_of_true (by simp [equal]) rfl
  | primitive | lambda | macroProc =>
    exact iff_of_true (equal_iff.2 (.procedure rfl rfl)) rfl

theorem isNan_of_hasNan (h : v.hasNan = false) : v.isNan = false := by
  cases v with
  | pair => rfl
  | _ => exact h

theorem equalThroughout_self (h : v.hasNan = false) : v.equalThroughout v = true := by
  induction v with
  | pair i a b ihHead ihTail =>
    obtain ⟨hhead, htail⟩ := Bool.or_eq_false_iff.1 h
    simp [equalThroughout, ihHead hhead, ihTail htail]
  | number n => exact Number.beq_self_iff.2 h
  | symbol s => exact Symbol.same_self s
  | nil => rfl
  | string | extension => simp [equalThroughout]
  | primitive | lambda | macroProc => exact sameProcedure_iff.2 ⟨_, rfl, rfl⟩

end Value

/-! ### Values of one heap -/

namespace Heap

open Value

variable {h : Heap} {a b c : Value}

theorem equal_of_same (ha : h.Has a) (hb : h.Has b) (hsame : a.same b = true) :
    a.equal b = true := by
  apply equal_iff.2
  revert hsame
  fun_cases same a b with
  | case1 => exact fun _ => .nil
  | case2 i a b j c d =>
    intro hsame
    obtain rfl := beq_iff_eq.1 hsame
    exact .shared i a b c d
  | case3 s t => exact .symbol
  | case4 x y => exact .number
  | case5 i s j t =>
    intro hsame
    obtain rfl := beq_iff_eq.1 hsame
    obtain ⟨-, rfl⟩ := Value.string.inj (ha.eq_of_ident hb rfl rfl)
    exact .string i i s
  | case6 i e j e' =>
    intro hsame
    obtain rfl := beq_iff_eq.1 hsame
    exact .extension i e e'
  | case7 =>
    intro hsame
    obtain ⟨i, hi, hj⟩ := sameProcedure_iff.1 hsame
    exact .procedure hi hj

/-- A short cut on one side is no short cut but the same pair, so what is known of the other side is
known of both. -/
theorem equal_trans (ha : h.Has a) (hb : h.Has b) (hc : h.Has c) (hab : Equal a b)
    (hbc : Equal b c) : Equal a c := by
  induction hab generalizing c with
  | nil => exact hbc
  | shared i =>
    rw [ha.eq_of_ident hb rfl rfl]
    exact hbc
  | pair hhead htail ihHead ihTail =>
    obtain ⟨-, hahead, hatail⟩ := has_pair_iff.1 ha
    obtain ⟨-, hbhead, hbtail⟩ := has_pair_iff.1 hb
    cases hbc with
    | shared i =>
      rw [← hb.eq_of_ident hc rfl rfl]
      exact .pair hhead htail
    | pair hhead' htail' =>
      obtain ⟨-, hchead, hctail⟩ := has_pair_iff.1 hc
      exact .pair (ihHead hahead hbhead hchead hhead') (ihTail hatail hbtail hctail htail')
    | procedure hi => cases hi
  | symbol hst =>
    cases hbc with
    | symbol htu => exact .symbol (Symbol.same_trans hst htu)
    | procedure hi => cases hi
  | number hxy =>
    cases hbc with
    | number hyz => exact .number (BEq.trans hxy hyz)
    | procedure hi => cases hi
  | string i j text =>
    cases hbc with
    | string j k => exact .string i k text
    | procedure hi => cases hi
  | extension i e e' =>
    cases hbc with
    | extension i e' e'' => exact .extension i e e''
    | procedure hi => cases hi
  | procedure hi hj =>
    cases hbc with
    | procedure hj' hk =>
      obtain rfl := Option.some.inj (hj.symm.trans hj')
      exact .procedure hi hk
    | _ => cases hj

/-- Two lists are equal only if they have as many elements, and elements in the same place are equal
or come after a pair that both lists have in the same place. -/
theorem elements_of_equal (ha : h.Has a) (hb : h.Has b) (hab : Equal a b) :
    a.length = b.length ∧ ∀ (i : Nat) (x y : Value), a.elements[i]? = some x → b.elements[i]? = some y →
      Equal x y ∨ ∃ j ≤ i, ∃ p, a.cells[j]? = some p ∧ b.cells[j]? = some p := by
  induction hab with
  | shared i =>
    rw [ha.eq_of_ident hb rfl rfl]
    exact ⟨rfl, fun k x y _ _ => .inr ⟨0, Nat.zero_le k, _, rfl, rfl⟩⟩
  | pair hhead htail _ ihTail =>
    obtain ⟨-, -, hatail⟩ := has_pair_iff.1 ha
    obtain ⟨-, -, hbtail⟩ := has_pair_iff.1 hb
    obtain ⟨hlength, hrest⟩ := ihTail hatail hbtail
    refine ⟨congrArg (· + 1) hlength, fun k x y hx hy => ?_⟩
    cases k with
    | zero =>
      obtain rfl := Option.some.inj hx
      obtain rfl := Option.some.inj hy
      exact .inl hhead
    | succ k =>
      refine (hrest k x y hx hy).imp_right ?_
      rintro ⟨j, hj, p, hp, hq⟩
      exact ⟨j + 1, Nat.succ_le_succ hj, p, hp, hq⟩
  | procedure hi hj =>
    rw [length, length, elements_of_procedureId? hi, elements_of_procedureId? hj]
    exact ⟨rfl, nofun⟩
  | _ => exact ⟨rfl, nofun⟩

/-- Where nothing is no number, the short cut makes no difference. -/
theorem equal_eq_equalThroughout (ha : h.Has a) (hb : h.Has b) (hnan : a.hasNan = false) :
    a.equal b = a.equalThroughout b := by
  induction a generalizing b with
  | pair i head tail ihHead ihTail =>
    cases b with
    | pair j head' tail' =>
      by_cases hij : i = j
      · subst hij
        rw [← ha.eq_of_ident hb rfl rfl, equalThroughout_self hnan]
        exact equal_self_iff.2 rfl
      · obtain ⟨-, hhead, htail⟩ := has_pair_iff.1 ha
        obtain ⟨-, hhead', htail'⟩ := has_pair_iff.1 hb
        obtain ⟨hnanHead, hnanTail⟩ := Bool.or_eq_false_iff.1 hnan
        have hne : (i == j) = false := beq_eq_false_iff_ne.2 hij
        rw [equal, equalThroughout, hne, Bool.false_or, ihHead hhead hhead' hnanHead,
          ihTail htail htail' hnanTail]
    | _ => rfl
  | _ => cases b <;> rfl

theorem equalityLaws {S : Value → Prop} (hS : ∀ v, S v → h.Has v) : EqualityLaws S where
  one ha hb hi hj := (hS _ ha).eq_of_ident (hS _ hb) hi hj
  same ha hb hsame := equal_of_same (hS _ ha) (hS _ hb) hsame
  symm _ _ := equal_comm _ _
  trans ha hb hc hab hbc :=
    equal_iff.2 (equal_trans (hS _ ha) (hS _ hb) (hS _ hc) (equal_iff.1 hab) (equal_iff.1 hbc))
  refl _ := equal_self_iff
  lists ha hb hab := by
    obtain ⟨hlength, helements⟩ := elements_of_equal (hS _ ha) (hS _ hb) (equal_iff.1 hab)
    exact ⟨hlength, fun i x y hx hy => (helements i x y hx hy).imp_left equal_iff.2⟩
  throughout ha hb hnan := equal_eq_equalThroughout (hS _ ha) (hS _ hb) hnan
  equivalence := {
    refl := fun a => equal_self_iff.2 (isNan_of_hasNan a.2.2)
    symm := fun {a b} hab => (equal_comm b.1 a.1).trans hab
    trans := fun {a b c} hab hbc => equal_iff.2 (equal_trans (hS _ a.2.1) (hS _ b.2.1)
      (hS _ c.2.1) (equal_iff.1 hab) (equal_iff.1 hbc)) }

end Heap

end Lisplet
