import Lisplet.Proofs.Value.Parts

/-! Objects and their identities.  A heap says which value each identity stands for.  New objects get
identities that a supply has still to hand out, so a heap can grow with each of them and never has to
change; two values of one heap with the same identity are therefore the same value.  `Heap.makes_built`
is about values that are made of old ones and of new objects in whatever way. -/

namespace Lisplet

namespace Value

/-- The identity of a value that has one. -/
def ident? : Value → Option Ident
  | .pair id .. | .string id _ | .extension id _ => some id
  | .primitive id _ | .lambda id .. | .macroProc id .. => some id
  | .nil | .symbol _ | .number _ => none

end Value

instance (s : Supply) (i : Ident) : Decidable (s.Used i) := inferInstanceAs (Decidable (_ ∧ _))

/-- The value that each identity stands for. -/
def Heap := Ident → Option Value

/-- What can be made with the supply: each part is old or has an identity of its own that comes from
the supply. -/
structure Supply.Builds (old : Value → Prop) (s : Supply) (made : Value × Supply) : Prop where
  owner : made.2.owner = s.owner
  next : s.next ≤ made.2.next
  parts : made.1.All fun w => old w ∨ ∀ i, w.ident? = some i → s.Ahead i ∧ made.2.Used i
  one : ∀ w ∈ made.1.parts, ∀ w' ∈ made.1.parts, ¬ old w → ¬ old w' →
    ∀ i, w.ident? = some i → w'.ident? = some i → w = w'

namespace Supply

variable {old : Value → Prop} {s : Supply} {v : Value}

theorem Builds.imp {old' : Value → Prop} {made : Value × Supply} (h : s.Builds old made)
    (hold : ∀ v, old v → old' v) : s.Builds old' made where
  owner := h.owner
  next := h.next
  parts w hw := (h.parts w hw).imp_left (hold w)
  one w hw w' hw' hnew hnew' :=
    h.one w hw w' hw' (fun hw => hnew (hold w hw)) fun hw' => hnew' (hold w' hw')

/-- A value whose parts are old or have no identity needs no new object. -/
theorem builds_old (hparts : v.All fun w => old w ∨ w.ident? = none) : s.Builds old (v, s) := by
  refine ⟨rfl, Nat.le_refl _, fun w hw => ?_, fun w hw w' _ hnew _ i hi _ => ?_⟩
  · refine (hparts w hw).imp_right fun hnone i hi => ?_
    rw [hnone] at hi
    cases hi
  · rw [(hparts w hw).resolve_left hnew] at hi
    cases hi

/-- One new object whose other parts are old. -/
theorem builds_one (hident : v.ident? = some s.ident) (hparts : ∀ w ∈ v.parts, w = v ∨ old w) :
    s.Builds old (v, s.rest) := by
  refine ⟨rfl, Nat.le_succ _, fun w hw => ?_, fun w hw w' hw' hnew hnew' i _ _ => ?_⟩
  · rcases hparts w hw with rfl | hold
    · refine .inr fun i hi => ?_
      obtain rfl := Option.some.inj (hident.symm.trans hi)
      exact ⟨⟨rfl, Nat.le_refl _⟩, rfl, Nat.lt_succ_self _⟩
    · exact .inl hold
  · rw [(hparts w hw).resolve_right hnew, (hparts w' hw').resolve_right hnew']

end Supply

namespace Heap

/-- The value and all its parts are in the heap. -/
def Has (h : Heap) (v : Value) : Prop := v.All fun w => ∀ i, w.ident? = some i → h i = some w

/-- Nothing has an identity that the supply has still to hand out. -/
def Free (h : Heap) (s : Supply) : Prop := ∀ i, s.Ahead i → h i = none

/-- What was there still is, and what is new has identities of the given owner. -/
structure Grows (owner : Nat) (h h' : Heap) : Prop where
  keeps : ∀ i v, h i = some v → h' i = some v
  others : ∀ i, i.owner ≠ owner → h' i = h i

/-- The property holds of some heap that has grown out of this one. -/
def Later (owner : Nat) (h : Heap) (C : Heap → Prop) : Prop := ∃ h', h.Grows owner h' ∧ C h'

/-- The supply hands out identities of the owner, which are free. -/
structure Ready (owner : Nat) (h : Heap) (s : Supply) : Prop where
  owner : s.owner = owner
  free : h.Free s

/-- The value may be put into the heap, and the supply goes on after that. -/
def Makes (owner : Nat) (h : Heap) (made : Value × Supply) : Prop :=
  h.Later owner fun h' => h'.Has made.1 ∧ h'.Ready owner made.2

variable {owner : Nat} {h h' h'' : Heap} {s : Supply} {v w : Value}

theorem Grows.refl (owner : Nat) (h : Heap) : h.Grows owner h := ⟨fun _ _ hv => hv, fun _ _ => rfl⟩

theorem Grows.trans (hh : h.Grows owner h') (hh' : h'.Grows owner h'') : h.Grows owner h'' :=
  ⟨fun i v hv => hh'.keeps i v (hh.keeps i v hv),
    fun i hi => (hh'.others i hi).trans (hh.others i hi)⟩

theorem Later.now {C : Heap → Prop} (hC : C h) : h.Later owner C := ⟨h, .refl owner h, hC⟩

theorem Later.since {C : Heap → Prop} (hC : h'.Later owner C) (hgrows : h.Grows owner h') :
    h.Later owner C := by
  obtain ⟨h'', hgrows', hC⟩ := hC
  exact ⟨h'', hgrows.trans hgrows', hC⟩

theorem Later.bind {C D : Heap → Prop} (hC : h.Later owner C)
    (hD : ∀ h', h.Grows owner h' → C h' → h'.Later owner D) : h.Later owner D := by
  obtain ⟨h', hgrows, hC⟩ := hC
  exact (hD h' hgrows hC).since hgrows

theorem Later.imp {C D : Heap → Prop} (hC : h.Later owner C)
    (hCD : ∀ h', h.Grows owner h' → C h' → D h') : h.Later owner D :=
  hC.bind fun h' hgrows hC => .now (hCD h' hgrows hC)

/-! ### What is in a heap -/

theorem Has.later (hv : h.Has v) (hgrows : h.Grows owner h') : h'.Has v :=
  fun w hw i hi => hgrows.keeps i w (hv w hw i hi)

theorem Has.part (hv : h.Has v) (hw : w ∈ v.parts) : h.Has w := Value.All.part hv hw

/-- Values with the same identity are the same value. -/
theorem Has.eq_of_ident (hv : h.Has v) (hw : h.Has w) {i : Ident} (hi : v.ident? = some i)
    (hj : w.ident? = some i) : v = w :=
  Option.some.inj ((Value.All.self hv i hi).symm.trans (Value.All.self hw i hj))

theorem has_of_ident (hparts : v.parts = [v]) (hident : v.ident? = none) : h.Has v := by
  rw [Has, Value.All, hparts]
  refine List.forall_mem_singleton.2 fun i hi => ?_
  rw [hident] at hi
  cases hi

/-- The heap with one object. -/
def single (v : Value) : Heap := fun i => if v.ident? = some i then some v else none

theorem has_single (hparts : v.parts = [v]) : (single v).Has v := by
  rw [Has, Value.All, hparts]
  exact List.forall_mem_singleton.2 fun i hi => if_pos hi

theorem has_pair_iff {id : Ident} {head tail : Value} :
    h.Has (.pair id head tail) ↔
      h id = some (.pair id head tail) ∧ h.Has head ∧ h.Has tail := by
  rw [Has, Value.all_pair_iff]
  simp only [Value.ident?, Option.some.injEq, forall_eq']
  rfl

/-! ### New objects -/

/-- A supply of another owner stays ready. -/
theorem Ready.later (hs : h.Ready owner s) {other : Nat} (hgrows : h.Grows other h')
    (howner : owner ≠ other) : h'.Ready owner s := by
  refine ⟨hs.owner, fun i hi => ?_⟩
  have hi' : i.owner ≠ other := by
    rw [hi.1, hs.owner]
    exact howner
  rw [hgrows.others i hi']
  exact hs.free i hi

theorem free_single (howner : ∀ i, v.ident? = some i → i.owner ≠ s.owner) : (single v).Free s :=
  fun i hi => if_neg fun hv => howner i hv hi.1

theorem Free.not_ahead (hfree : h.Free s) (hv : h.Has v) {i : Ident} (hi : v.ident? = some i) :
    ¬ s.Ahead i := by
  intro hahead
  have hnone := hfree i hahead
  rw [Value.All.self hv i hi] at hnone
  cases hnone

/-- The heap with what has been made. -/
def add (h : Heap) (s : Supply) (made : Value × Supply) : Heap := fun i =>
  if s.Ahead i ∧ made.2.Used i then made.1.parts.find? fun w => w.ident? = some i else h i

theorem makes_built {old : Value → Prop} {made : Value × Supply} (hs : h.Ready owner s)
    (hold : ∀ v, old v → h.Has v) (hbuilds : s.Builds old made) : h.Makes owner made := by
  obtain ⟨rfl, hfree⟩ := hs
  have hsame : ∀ i, ¬ s.Ahead i → h.add s made i = h i := fun i hi => if_neg fun hnew => hi hnew.1
  refine ⟨h.add s made, ⟨fun i v hv => ?_, fun i hi => ?_⟩, ?_, hbuilds.owner, fun i hi => ?_⟩
  · rw [hsame i fun hahead => by rw [hfree i hahead] at hv; cases hv]
    exact hv
  · exact hsame i fun hahead => hi hahead.1
  · intro w hw i hi
    by_cases hahead : s.Ahead i
    · -- What has an identity to come is new, and the only part with that identity.
      have hnew : ∀ u, u.ident? = some i → ¬ old u := fun u hu hold' =>
        hfree.not_ahead (hold u hold') hu hahead
      have hused := ((hbuilds.parts w hw).resolve_left (hnew w hi) i hi).2
      rw [add, if_pos ⟨hahead, hused⟩]
      cases hfind : made.1.parts.find? fun w => w.ident? = some i with
      | none => exact absurd (decide_eq_true hi) (List.find?_eq_none.1 hfind w hw)
      | some w' =>
        have hi' : w'.ident? = some i := by simpa using List.find?_some hfind
        have hw' := List.mem_of_find?_eq_some hfind
        rw [hbuilds.one w hw w' hw' (hnew w hi) (hnew w' hi') i hi hi']
    · rw [hsame i hahead]
      rcases hbuilds.parts w hw with hw | hnew
      · exact Value.All.self (hold w hw) i hi
      · exact absurd (hnew i hi).1 hahead
  · obtain ⟨howner, hserial⟩ := hi
    have hunused : ¬ made.2.Used i := by
      rintro ⟨-, hlt⟩
      omega
    rw [add, if_neg fun hnew => hunused hnew.2]
    exact hfree i ⟨howner.trans hbuilds.owner, Nat.le_trans hbuilds.next hserial⟩

/-- One new object whose other parts are in the heap. -/
theorem makes_one (hs : h.Ready owner s) (hident : v.ident? = some s.ident)
    (hparts : ∀ w ∈ v.parts, w = v ∨ h.Has w) : h.Makes owner (v, s.rest) :=
  makes_built hs (fun _ hw => hw) (Supply.builds_one hident hparts)

theorem makes_leaf (hs : h.Ready owner s) (hident : v.ident? = some s.ident)
    (hparts : v.parts = [v]) : h.Makes owner (v, s.rest) := by
  refine makes_one hs hident fun w hw => .inl ?_
  rw [hparts] at hw
  exact List.mem_singleton.1 hw

theorem makes_cons {head tail : Value} (hs : h.Ready owner s) (hhead : h.Has head)
    (htail : h.Has tail) : h.Makes owner (.pair s.ident head tail, s.rest) := by
  refine makes_one hs rfl fun w hw => ?_
  rcases List.mem_cons.1 hw with rfl | hw
  · exact .inl rfl
  · exact .inr ((List.mem_append.1 hw).elim hhead.part htail.part)

theorem makes_list {items : List Value} (hs : h.Ready owner s) (hitems : ∀ v ∈ items, h.Has v) :
    h.Makes owner (Value.list items s) := by
  induction items with
  | nil => exact .now ⟨has_of_ident rfl rfl, hs⟩
  | cons v vs ih =>
    obtain ⟨hv, hvs⟩ := List.forall_mem_cons.1 hitems
    refine (ih hvs).bind fun h' hgrows hrest => ?_
    rw [Value.list_cons]
    exact makes_cons hrest.2 (hv.later hgrows) hrest.1

end Heap

end Lisplet
