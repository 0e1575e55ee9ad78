import Mathlib.Data.Finset.Dedup
import Mathlib.Data.List.Basic
import ScssExtend.Proofs.OrderedSet
import ScssExtend.Selector.Unify

/-!
# Compounds as sets of components

What the operations on compounds do to the component sets (`Compound.componentSet`): equivalence and inclusion
(`Compound.eqv_iff`, `Compound.isSubsetOf_iff`), difference (`Compound.mem_minus`) and unification, which
demands what both sides demand (`Compound.mem_or_mem_of_unify`, `Compound.mem_of_unify`). Components that exclude
no other one are `Simple.IsFree`; compounds of free components unify always, into exactly the union
(`Compound.unify_of_free`).
-/

namespace ScssExtend

/-! ## Arranging -/

/-- There are four placements. -/
lemma Simple.placement_lt (s : Simple) : s.placement < 4 := by
  cases s <;> simp [Simple.placement]

/-- Arranging neither adds nor loses components. -/
lemma mem_arrange {s : Simple} {ss : List Simple} : s ∈ arrange ss ↔ s ∈ ss := by
  simp only [arrange, List.mem_flatMap, List.mem_filter, beq_iff_eq]
  constructor
  · rintro ⟨_, _, hs, _⟩
    exact hs
  · intro hs
    refine ⟨s.placement, ?_, hs, rfl⟩
    have := s.placement_lt
    simp only [List.mem_cons, List.not_mem_nil, or_false]
    omega

namespace Compound

/-! ## Equivalence and inclusion -/

/-- The canonical form has the same components. -/
lemma mem_canonical {s : Simple} {c : Compound} : s ∈ c.canonical.components ↔ s ∈ c.components :=
  OrderedSet.mem_ofList

/-- Compounds are equivalent when they have the same components. -/
lemma eqv_iff {c d : Compound} : c.eqv d ↔ ∀ s, s ∈ c.components ↔ s ∈ d.components := by
  simp only [eqv, beq_iff_eq]
  constructor
  · intro h s
    rw [← mem_canonical, h, mem_canonical]
  · intro h
    have e : c.canonical.components = d.canonical.components := by
      refine OrderedSet.eq_of_increasing (OrderedSet.increasing_ofList _)
        (OrderedSet.increasing_ofList _) ?_
      intro s
      rw [mem_canonical, mem_canonical, h s]
    rwa [Compound.mk.injEq]

/-- Inclusion is that of the components. -/
lemma isSubsetOf_iff {c d : Compound} : c.isSubsetOf d ↔ c.components ⊆ d.components := by
  simp only [isSubsetOf, List.all_eq_true, List.contains_iff_mem]
  exact Iff.rfl

/-- The components without their order and repetition. -/
def componentSet (c : Compound) : Finset Simple :=
  c.components.toFinset

/-- Compounds are equivalent when their component sets are equal. -/
lemma eqv_iff_componentSet_eq {c d : Compound} : c.eqv d ↔ c.componentSet = d.componentSet := by
  rw [eqv_iff, Finset.ext_iff]
  simp only [componentSet, List.mem_toFinset]

/-- Inclusion is that of the component sets. -/
lemma isSubsetOf_iff_componentSet_subset {c d : Compound} :
    c.isSubsetOf d ↔ c.componentSet ⊆ d.componentSet := by
  rw [isSubsetOf_iff, List.subset_def, Finset.subset_iff]
  simp only [componentSet, List.mem_toFinset]

/-! ## Difference and unification -/

/-- A difference has the components of the first side that the second one lacks. -/
lemma mem_minus {s : Simple} {c d : Compound} :
    s ∈ (c.minus d).components ↔ s ∈ c.components ∧ s ∉ d.components := by
  simp [minus]

/-- Adding what is missing gives the components of both. -/
lemma mem_addMissing {s : Simple} {ss ts : List Simple} : s ∈ addMissing ss ts ↔ s ∈ ss ∨ s ∈ ts := by
  unfold addMissing
  induction ts generalizing ss with
  | nil => simp
  | cons t ts ih =>
    rw [List.foldl_cons, ih]
    by_cases ht : ss.contains t
    · rw [if_pos ht, List.mem_cons]
      have := List.contains_iff_mem.1 ht
      grind
    · rw [if_neg ht]
      simp only [List.mem_append, List.mem_cons]
      grind

/-- Only `*` is ever dropped, and only beside a type. -/
lemma mem_dropUniversal {s : Simple} {ss : List Simple} :
    s ∈ dropUniversal ss ↔ s ∈ ss ∧ (s = .universal → ∀ t ∈ ss, t.typeName? = none) := by
  unfold dropUniversal
  split
  · next h =>
    obtain ⟨t, ht, htn⟩ := List.any_eq_true.1 h
    have : t.typeName? ≠ none := Option.isSome_iff_ne_none.1 htn
    simp only [List.mem_filter, bne_iff_ne]
    grind
  · next h =>
    have : ∀ t ∈ ss, t.typeName? = none := by simpa using h
    tauto

/-- What unification does when it succeeds and both sides demand something. -/
lemma unify_eq_some_of_ne_nil {c d u : Compound} (hc : c.components ≠ []) (hd : d.components ≠ [])
    (h : c.unify d = some u) :
    u = ⟨arrange (dropUniversal (addMissing c.components d.components))⟩ := by
  simp only [unify, isEmpty, List.isEmpty_iff, hc, hd, if_false] at h
  split at h
  · cases h
  · cases h
    rfl

/-- A unified compound has no component that neither side has. -/
lemma mem_or_mem_of_unify {c d u : Compound} (h : c.unify d = some u) {s : Simple}
    (hs : s ∈ u.components) : s ∈ c.components ∨ s ∈ d.components := by
  by_cases hc : c.components = []
  · simp only [unify, isEmpty, hc, List.isEmpty_nil, if_true] at h
    cases h
    exact .inr hs
  by_cases hd : d.components = []
  · simp only [unify, isEmpty, hd, List.isEmpty_nil, List.isEmpty_iff, hc, if_true, if_false] at h
    cases h
    exact .inl hs
  · cases unify_eq_some_of_ne_nil hc hd h
    exact mem_addMissing.1 (mem_dropUniversal.1 (mem_arrange.1 hs)).1

/-- A unified compound has every component of both sides, `*` perhaps excepted. -/
lemma mem_of_unify {c d u : Compound} (h : c.unify d = some u) {s : Simple}
    (hs : s ∈ c.components ∨ s ∈ d.components) (hu : s ≠ .universal) : s ∈ u.components := by
  by_cases hc : c.components = []
  · simp only [unify, isEmpty, hc, List.isEmpty_nil, if_true] at h
    cases h
    simpa [hc] using hs
  by_cases hd : d.components = []
  · simp only [unify, isEmpty, hd, List.isEmpty_nil, List.isEmpty_iff, hc, if_true, if_false] at h
    cases h
    simpa [hd] using hs
  · cases unify_eq_some_of_ne_nil hc hd h
    refine mem_arrange.2 (mem_dropUniversal.2 ⟨mem_addMissing.2 hs, ?_⟩)
    exact fun e => absurd e hu

/-- Compounds that conflict have components of one kind with different names. -/
lemma exists_of_conflicts {pick : Simple → Option String} {c d : Compound} (h : conflicts pick c d) :
    ∃ s ∈ c.components, ∃ t ∈ d.components, ∃ m n, pick s = some m ∧ pick t = some n ∧ m ≠ n := by
  unfold conflicts at h
  split at h
  · next m n hm hn =>
    obtain ⟨s, hs, hsm⟩ := List.exists_of_findSome?_eq_some hm
    obtain ⟨t, ht, htn⟩ := List.exists_of_findSome?_eq_some hn
    exact ⟨s, hs, t, ht, m, n, hsm, htn, bne_iff_ne.1 h⟩
  · cases h

/-- Unification fails only where types, ids or pseudo-elements conflict. -/
lemma conflicts_of_unify_eq_none {c d : Compound} (h : c.unify d = none) :
    conflicts Simple.typeName? c d ∨ conflicts Simple.idName? c d ∨
      conflicts Simple.pseudoElementName? c d := by
  unfold unify at h
  split_ifs at h with _ _ hconflicts
  simpa only [Bool.or_eq_true, or_assoc] using hconflicts

end Compound

/-! ## Free components -/

/-- A condition that excludes no other one: a class, a placeholder, an attribute or a pseudo-class. -/
def Simple.IsFree : Simple → Prop
  | className _ | placeholder _ | attr .. | pseudoClass .. => True
  | parent | universal | type _ | id _ | pseudoElement .. => False

namespace Compound

/-- Every component is free. -/
def IsFree (c : Compound) : Prop :=
  ∀ s ∈ c.components, s.IsFree

/-- Free components have no names that could conflict. -/
lemma findSome?_eq_none_of_free {c : Compound} (hc : c.IsFree) {pick : Simple → Option String}
    (hp : ∀ s : Simple, s.IsFree → pick s = none) : c.components.findSome? pick = none :=
  List.findSome?_eq_none_iff.2 fun s hs => hp s (hc s hs)

/-- Compounds of free components do not conflict. -/
lemma not_conflicts_of_free {c d : Compound} (hc : c.IsFree) {pick : Simple → Option String}
    (hp : ∀ s : Simple, s.IsFree → pick s = none) : conflicts pick c d = false := by
  simp [conflicts, findSome?_eq_none_of_free hc hp]

/-- Compounds of free components unify, into a compound with exactly the components of both. -/
lemma unify_of_free {c d : Compound} (hc : c.IsFree) (hd : d.IsFree) :
    ∃ u, c.unify d = some u ∧ ∀ s, s ∈ u.components ↔ s ∈ c.components ∨ s ∈ d.components := by
  have htype : conflicts Simple.typeName? c d = false :=
    not_conflicts_of_free hc fun s hs => by cases s <;> first | rfl | exact hs.elim
  have hid : conflicts Simple.idName? c d = false :=
    not_conflicts_of_free hc fun s hs => by cases s <;> first | rfl | exact hs.elim
  have hpseudo : conflicts Simple.pseudoElementName? c d = false :=
    not_conflicts_of_free hc fun s hs => by cases s <;> first | rfl | exact hs.elim
  obtain ⟨u, hu⟩ : ∃ u, c.unify d = some u := by
    simp only [unify, htype, hid, hpseudo, Bool.or_self, Bool.false_eq_true, if_false]
    split_ifs <;> exact ⟨_, rfl⟩
  refine ⟨u, hu, fun s => ⟨mem_or_mem_of_unify hu, fun hs => mem_of_unify hu hs ?_⟩⟩
  rintro rfl
  exact hs.elim (hc _) (hd _)

end Compound

end ScssExtend
