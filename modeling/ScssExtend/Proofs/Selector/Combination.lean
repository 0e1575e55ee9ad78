import Mathlib.Data.List.Induction
import ScssExtend.Proofs.Selector.Exclusion

/-!
# Unification is a partial commutative monoid

When unification succeeds it gives `Compound.combine`, in which the two compounds stand one behind the other,
without repetitions, arranged, and without `*` beside a type. All this can as well be done once at the end, so that
combining is associative (`Compound.combine_assoc`). A combined compound has the first names of the left side, and
those of the right side where the left one has none, so that it does not matter either which pair is tried first
(`Compound.bind_unify_eq_none_iff`). Hence unification is associative, with the empty compound as unit, and
commutative up to the order of components (`Compound.unify_comm_assoc`).
-/

namespace ScssExtend

/-- Where the components of a kind stand in a compound. -/
def ExclusiveKind.placement : ExclusiveKind → Nat
  | type => 1
  | id => 2
  | pseudoElement => 3

/-! ## Arranging -/

section Arrange

variable {ss ts : List Simple}

/-- An arrangement is told by the components of each placement. -/
lemma arrange_congr (h : ∀ place, (ss.filter fun s => s.placement == place) =
    ts.filter fun s => s.placement == place) : arrange ss = arrange ts :=
  List.flatMap_congr fun place _ => h place

/-- Arranging and choosing commute. -/
lemma filter_arrange (p : Simple → Bool) (ss : List Simple) :
    (arrange ss).filter p = arrange (ss.filter p) := by
  simp only [arrange, List.filter_flatMap, List.filter_filter, Bool.and_comm]

/-- Components of one placement are arranged already. -/
lemma arrange_eq_self {place : Nat} (h : ∀ s ∈ ss, s.placement = place) : arrange ss = ss := by
  cases ss with
  | nil => rfl
  | cons s ss =>
    have hlt := s.placement_lt
    rw [h s List.mem_cons_self] at hlt
    have hself : ((s :: ss).filter fun t => t.placement == place) = s :: ss :=
      List.filter_eq_self.2 fun t ht => beq_iff_eq.2 (h t ht)
    have hnone {other : Nat} (hne : place ≠ other) :
        ((s :: ss).filter fun t => t.placement == other) = [] :=
      List.filter_eq_nil_iff.2 fun t ht heq => hne ((h t ht).symm.trans (beq_iff_eq.1 heq))
    unfold arrange
    obtain rfl | rfl | rfl | rfl : place = 0 ∨ place = 1 ∨ place = 2 ∨ place = 3 := by omega
    all_goals simp [List.flatMap_cons, hself, hnone]

/-- Arranging keeps the order among the components of a placement. -/
lemma filter_placement_arrange (place : Nat) (ss : List Simple) :
    ((arrange ss).filter fun s => s.placement == place) = ss.filter fun s => s.placement == place := by
  rw [filter_arrange]
  exact arrange_eq_self fun s hs => beq_iff_eq.1 (List.mem_filter.1 hs).2

/-- Arranged components are arranged as they stand. -/
lemma arrange_arrange (ss : List Simple) : arrange (arrange ss) = arrange ss :=
  arrange_congr fun place => filter_placement_arrange place ss

end Arrange

namespace Compound

/-! ## Adding what is missing -/

/-- What is missing may be added in two steps. -/
lemma addMissing_append (ss ts us : List Simple) :
    addMissing ss (ts ++ us) = addMissing (addMissing ss ts) us :=
  List.foldl_append

section AddMissing

variable {ss ts : List Simple} {s : Simple}

/-- A component that is there is not added. -/
lemma addMissing_singleton_of_mem (h : s ∈ ss) : addMissing ss [s] = ss :=
  if_pos (List.contains_iff_mem.2 h)

/-- A component that is missing is added at the end. -/
lemma addMissing_singleton_of_not_mem (h : s ∉ ss) : addMissing ss [s] = ss ++ [s] :=
  if_neg (mt List.contains_iff_mem.1 h)

/-- Adding what is missing is associative. -/
lemma addMissing_assoc (ss ts us : List Simple) :
    addMissing (addMissing ss ts) us = addMissing ss (addMissing ts us) := by
  induction us using List.reverseRecOn with
  | nil => rfl
  | append_singleton us u ih =>
    rw [addMissing_append, addMissing_append, ih]
    by_cases hu : u ∈ addMissing ts us
    · rw [addMissing_singleton_of_mem hu, addMissing_singleton_of_mem (mem_addMissing.2 (.inr hu))]
    · rw [addMissing_singleton_of_not_mem hu, addMissing_append]

/-- Adding and choosing commute. -/
lemma filter_addMissing (p : Simple → Bool) (ss ts : List Simple) :
    (addMissing ss ts).filter p = addMissing (ss.filter p) (ts.filter p) := by
  induction ts using List.reverseRecOn with
  | nil => rfl
  | append_singleton ts t ih =>
    rw [addMissing_append, List.filter_append, addMissing_append, ← ih]
    cases hp : p t with
    | false =>
      rw [List.filter_cons_of_neg (by simp [hp]), List.filter_nil]
      by_cases ht : t ∈ addMissing ss ts
      · rw [addMissing_singleton_of_mem ht]
        rfl
      · rw [addMissing_singleton_of_not_mem ht, List.filter_append, List.filter_cons_of_neg (by simp [hp]),
          List.filter_nil, List.append_nil]
        rfl
    | true =>
      rw [List.filter_cons_of_pos hp, List.filter_nil]
      by_cases ht : t ∈ addMissing ss ts
      · have hmem : t ∈ (addMissing ss ts).filter p := List.mem_filter.2 ⟨ht, hp⟩
        rw [addMissing_singleton_of_mem ht, addMissing_singleton_of_mem hmem]
      · have hnot : t ∉ (addMissing ss ts).filter p := fun h => ht (List.mem_filter.1 h).1
        rw [addMissing_singleton_of_not_mem ht, addMissing_singleton_of_not_mem hnot, List.filter_append,
          List.filter_cons_of_pos hp, List.filter_nil]

/-- What is found first is found on the left side, unless there is nothing to be found. -/
lemma findSome?_addMissing (f : Simple → Option String) (ss ts : List Simple) :
    (addMissing ss ts).findSome? f = (ss.findSome? f).or (ts.findSome? f) := by
  induction ts using List.reverseRecOn with
  | nil => rw [List.findSome?_nil, Option.or_none]; rfl
  | append_singleton ts t ih =>
    rw [addMissing_append, List.findSome?_append, ← Option.or_assoc, ← ih]
    by_cases ht : t ∈ addMissing ss ts
    · -- it is there already, so that nothing is found in it that is not found before
      rw [addMissing_singleton_of_mem ht]
      cases hfirst : (addMissing ss ts).findSome? f with
      | none => rw [Option.none_or, List.findSome?_singleton, List.findSome?_eq_none_iff.1 hfirst t ht]
      | some n => rfl
    · rw [addMissing_singleton_of_not_mem ht, List.findSome?_append]

end AddMissing

/-- Both sides may be arranged before what is missing is added, since the whole is arranged anyway. -/
lemma arrange_addMissing (ss ts : List Simple) :
    arrange (addMissing (arrange ss) (arrange ts)) = arrange (addMissing ss ts) := by
  refine arrange_congr fun place => ?_
  rw [filter_addMissing, filter_addMissing, filter_placement_arrange, filter_placement_arrange]

/-! ## Dropping `*` -/

section DropUniversal

variable {ss ts : List Simple}

/-- Beside a type `*` is dropped. -/
lemma dropUniversal_of_exists (h : ∃ s ∈ ss, s.typeName?.isSome) :
    dropUniversal ss = ss.filter (· != .universal) :=
  if_pos (List.any_eq_true.2 h)

/-- Without a type `*` stays. -/
lemma dropUniversal_of_forall (h : ¬∃ s ∈ ss, s.typeName?.isSome) : dropUniversal ss = ss :=
  if_neg (mt List.any_eq_true.1 h)

/-- Dropping `*` and arranging commute. -/
lemma dropUniversal_arrange (ss : List Simple) : dropUniversal (arrange ss) = arrange (dropUniversal ss) := by
  have hmem : (∃ s ∈ arrange ss, s.typeName?.isSome) ↔ ∃ s ∈ ss, s.typeName?.isSome := by
    simp only [mem_arrange]
  by_cases h : ∃ s ∈ ss, s.typeName?.isSome
  · rw [dropUniversal_of_exists h, dropUniversal_of_exists (hmem.2 h), filter_arrange]
  · rw [dropUniversal_of_forall h, dropUniversal_of_forall (mt hmem.1 h)]

/-- Only `*` is dropped. -/
lemma filter_dropUniversal (ss : List Simple) :
    (dropUniversal ss).filter (· != .universal) = ss.filter (· != .universal) := by
  by_cases h : ∃ s ∈ ss, s.typeName?.isSome
  · rw [dropUniversal_of_exists h, List.filter_filter]
    simp only [Bool.and_self]
  · rw [dropUniversal_of_forall h]

/-- Types are not dropped. -/
lemma exists_type_dropUniversal :
    (∃ s ∈ dropUniversal ss, s.typeName?.isSome) ↔ ∃ s ∈ ss, s.typeName?.isSome := by
  refine exists_congr fun s => and_congr_left fun hs => ?_
  rw [mem_dropUniversal, and_iff_left_iff_imp]
  rintro - rfl
  cases hs

/-- Once dropped, `*` need not be dropped again. -/
lemma dropUniversal_dropUniversal (ss : List Simple) :
    dropUniversal (dropUniversal ss) = dropUniversal ss := by
  by_cases h : ∃ s ∈ ss, s.typeName?.isSome
  · rw [dropUniversal_of_exists (exists_type_dropUniversal.2 h), filter_dropUniversal,
      dropUniversal_of_exists h]
  · rw [dropUniversal_of_forall h, dropUniversal_of_forall h]

/-- It does not matter whether a type drops `*` before or after the other side is added. -/
lemma dropUniversal_addMissing (ss ts : List Simple) :
    dropUniversal (addMissing (dropUniversal ss) (dropUniversal ts)) = dropUniversal (addMissing ss ts) := by
  have hmem {ss ts : List Simple} : (∃ s ∈ addMissing ss ts, s.typeName?.isSome) ↔
      (∃ s ∈ ss, s.typeName?.isSome) ∨ ∃ s ∈ ts, s.typeName?.isSome := by
    simp only [mem_addMissing, or_and_right, exists_or]
  by_cases h : ∃ s ∈ addMissing ss ts, s.typeName?.isSome
  · have h' : ∃ s ∈ addMissing (dropUniversal ss) (dropUniversal ts), s.typeName?.isSome := by
      rwa [hmem, exists_type_dropUniversal, exists_type_dropUniversal, ← hmem]
    rw [dropUniversal_of_exists h, dropUniversal_of_exists h', filter_addMissing, filter_addMissing,
      filter_dropUniversal, filter_dropUniversal]
  · obtain ⟨hs, ht⟩ := not_or.1 (mt hmem.2 h)
    rw [dropUniversal_of_forall hs, dropUniversal_of_forall ht]

end DropUniversal

/-! ## Combining -/

/-- The components arranged, and without `*` beside a type. -/
def settle (ss : List Simple) : List Simple :=
  arrange (dropUniversal ss)

/-- Settled components are settled as they stand. -/
lemma settle_settle (ss : List Simple) : settle (settle ss) = settle ss := by
  rw [settle, settle, dropUniversal_arrange, dropUniversal_dropUniversal, arrange_arrange]

/-- Both sides may be settled before what is missing is added. -/
lemma settle_addMissing (ss ts : List Simple) :
    settle (addMissing (settle ss) (settle ts)) = settle (addMissing ss ts) := by
  simp only [settle]
  rw [← dropUniversal_arrange, arrange_addMissing, dropUniversal_arrange, dropUniversal_addMissing]

/-- The left side may be settled first. -/
lemma settle_addMissing_left (ss ts : List Simple) :
    settle (addMissing (settle ss) ts) = settle (addMissing ss ts) := by
  rw [← settle_addMissing, settle_settle, settle_addMissing]

/-- The right side may be settled first. -/
lemma settle_addMissing_right (ss ts : List Simple) :
    settle (addMissing ss (settle ts)) = settle (addMissing ss ts) := by
  rw [← settle_addMissing, settle_settle, settle_addMissing]

/-- Some component is always left. -/
lemma settle_ne_nil {ss : List Simple} (h : ss ≠ []) : settle ss ≠ [] := by
  by_cases htype : ∃ s ∈ ss, s.typeName?.isSome
  · obtain ⟨s, hs, -⟩ := exists_type_dropUniversal.2 htype
    exact List.ne_nil_of_mem (mem_arrange.2 hs)
  · obtain ⟨s, hs⟩ := List.exists_mem_of_ne_nil ss h
    rw [settle, dropUniversal_of_forall htype]
    exact List.ne_nil_of_mem (mem_arrange.2 hs)

/-- What unification gives when it does not fail. -/
def combine (c d : Compound) : Compound :=
  if c.isEmpty then d
  else if d.isEmpty then c
  else ⟨settle (addMissing c.components d.components)⟩

section Combine

variable {c d e u : Compound}

/-- The empty compound is the one without components. -/
lemma eq_empty (h : c.components = []) : c = empty :=
  congrArg Compound.mk h

/-- Unification with the empty compound on the right gives the other side. -/
lemma unify_empty_right (c : Compound) : c.unify empty = some c := by
  obtain ⟨_ | ⟨s, ss⟩⟩ := c <;> rfl

/-- The empty compound is a unit on the left. -/
lemma combine_empty_left (d : Compound) : empty.combine d = d :=
  rfl

/-- The empty compound is a unit on the right. -/
lemma combine_empty_right (c : Compound) : c.combine empty = c := by
  obtain ⟨_ | ⟨s, ss⟩⟩ := c <;> rfl

/-- Two nonempty compounds are combined by adding what is missing and settling the whole. -/
lemma combine_eq (hc : c.components ≠ []) (hd : d.components ≠ []) :
    c.combine d = ⟨settle (addMissing c.components d.components)⟩ := by
  rw [combine, isEmpty, isEmpty, if_neg (mt List.isEmpty_iff.1 hc), if_neg (mt List.isEmpty_iff.1 hd)]

/-- Combining a nonempty compound with another gives a nonempty one. -/
lemma combine_ne_nil (hc : c.components ≠ []) : (c.combine d).components ≠ [] := by
  by_cases hd : d.components = []
  · obtain rfl := eq_empty hd
    rwa [combine_empty_right]
  · obtain ⟨s, hs⟩ := List.exists_mem_of_ne_nil _ hc
    rw [combine_eq hc hd]
    exact settle_ne_nil (List.ne_nil_of_mem (mem_addMissing.2 (.inl hs)))

/-- Combining is associative, component for component. -/
theorem combine_assoc (c d e : Compound) : (c.combine d).combine e = c.combine (d.combine e) := by
  by_cases hc : c.components = []
  · obtain rfl := eq_empty hc
    rw [combine_empty_left, combine_empty_left]
  by_cases hd : d.components = []
  · obtain rfl := eq_empty hd
    rw [combine_empty_right, combine_empty_left]
  by_cases he : e.components = []
  · obtain rfl := eq_empty he
    rw [combine_empty_right, combine_empty_right]
  rw [combine_eq (combine_ne_nil hc) he, combine_eq hc hd, combine_eq hc (combine_ne_nil hd),
    combine_eq hd he, settle_addMissing_left, settle_addMissing_right, addMissing_assoc]

/-- Where unification succeeds it gives the combination. -/
lemma eq_combine_of_unify (h : c.unify d = some u) : u = c.combine d := by
  by_cases hc : c.components = []
  · obtain rfl := eq_empty hc
    cases h
    rfl
  by_cases hd : d.components = []
  · obtain rfl := eq_empty hd
    rw [unify_empty_right] at h
    cases h
    exact (combine_empty_right c).symm
  · rw [combine_eq hc hd]
    exact unify_eq_some_of_ne_nil hc hd h

/-! ## First names -/

variable {k : ExclusiveKind}

/-- Settling keeps the names of a kind: `*` has none, and their components have one placement. -/
lemma filterMap_settle (k : ExclusiveKind) (ss : List Simple) :
    (settle ss).filterMap k.name? = ss.filterMap k.name? := by
  have hfilter {p : Simple → Bool} (hp : ∀ s n, k.name? s = some n → p s) (ts : List Simple) :
      (ts.filter p).filterMap k.name? = ts.filterMap k.name? := by
    rw [List.filterMap_filter]
    refine List.filterMap_congr fun s _ => ?_
    cases hs : k.name? s with
    | none => simp
    | some n => rw [if_pos (hp s n hs)]
  have hplacement : ∀ s n, k.name? s = some n → (s.placement == k.placement) := by
    intro s n hs
    obtain ⟨rfl, rfl⟩ | ⟨rfl, rfl⟩ | ⟨rfl, argument, rfl⟩ := ExclusiveKind.name?_eq_some_iff.1 hs <;> rfl
  have huniversal : ∀ s n, k.name? s = some n → (s != .universal) := by
    rintro s n hs
    refine bne_iff_ne.2 ?_
    rintro rfl
    simp at hs
  calc (settle ss).filterMap k.name?
      = ((settle ss).filter (·.placement == k.placement)).filterMap k.name? := (hfilter hplacement _).symm
    _ = ((dropUniversal ss).filter (·.placement == k.placement)).filterMap k.name? := by
      rw [settle, filter_placement_arrange]
    _ = (dropUniversal ss).filterMap k.name? := hfilter hplacement _
    _ = ((dropUniversal ss).filter (· != .universal)).filterMap k.name? := (hfilter huniversal _).symm
    _ = (ss.filter (· != .universal)).filterMap k.name? := by rw [filter_dropUniversal]
    _ = ss.filterMap k.name? := hfilter huniversal _

/-- The first names are those of the left side, or else those of the right side. -/
lemma head?_names_unify (h : c.unify d = some u) :
    (u.names k).head? = (c.names k).head?.or (d.names k).head? := by
  rw [eq_combine_of_unify h]
  by_cases hc : c.components = []
  · obtain rfl := eq_empty hc
    rfl
  by_cases hd : d.components = []
  · obtain rfl := eq_empty hd
    rw [combine_empty_right]
    exact Option.or_none.symm
  · rw [combine_eq hc hd, names, names, names, filterMap_settle, List.head?_filterMap,
      List.head?_filterMap, List.head?_filterMap, findSome?_addMissing]

/-! ## Three compounds -/

/-- Of three names the same two clash whichever pair comes first. -/
lemma clash_or_iff (x y z : Option String) :
    Clash x y ∨ Clash (x.or y) z ↔ Clash y z ∨ Clash x (y.or z) := by
  cases x <;> cases y <;> cases z <;> simp [Clash]
  grind

/-- Three compounds fail to unify in both ways or in none. -/
lemma bind_unify_eq_none_iff (c d e : Compound) :
    (c.unify d).bind (·.unify e) = none ↔ (d.unify e).bind (c.unify ·) = none := by
  have hleft : (c.unify d).bind (·.unify e) = none ↔ ∃ k, Clash (c.names k).head? (d.names k).head? ∨
      Clash ((c.names k).head?.or (d.names k).head?) (e.names k).head? := by
    rw [exists_or, ← unify_eq_none_iff]
    cases h : c.unify d with
    | none => simp
    | some u => simp only [Option.bind_some, unify_eq_none_iff, head?_names_unify h, reduceCtorEq,
        false_or]
  have hright : (d.unify e).bind (c.unify ·) = none ↔ ∃ k, Clash (d.names k).head? (e.names k).head? ∨
      Clash (c.names k).head? ((d.names k).head?.or (e.names k).head?) := by
    rw [exists_or, ← unify_eq_none_iff]
    cases h : d.unify e with
    | none => simp
    | some u => simp only [Option.bind_some, unify_eq_none_iff, head?_names_unify h, reduceCtorEq,
        false_or]
  rw [hleft, hright]
  exact exists_congr fun k => clash_or_iff _ _ _

/-- Unification is commutative up to the order of components, and associative component for component, with the
empty compound as unit. -/
theorem unify_comm_assoc :
    (∀ c d : Compound, SameOutcome (c.unify d) (d.unify c)) ∧
    (∀ c d e : Compound, (c.unify d).bind (·.unify e) = (d.unify e).bind (c.unify ·)) ∧
    ∀ c : Compound, empty.unify c = some c ∧ c.unify empty = some c := by
  refine ⟨fun c d => ?_, fun c d e => ?_, fun c => ⟨rfl, unify_empty_right c⟩⟩
  · refine sameOutcome_of_forall ?_ fun u v hu hv => eqv_iff.2 fun s => ?_
    · simp only [unify_eq_none_iff, clash_comm]
    · rw [mem_unify hu, mem_unify hv]
      tauto
  · cases hleft : (c.unify d).bind (·.unify e) with
    | none => exact ((bind_unify_eq_none_iff c d e).1 hleft).symm
    | some l =>
      cases hright : (d.unify e).bind (c.unify ·) with
      | none =>
        rw [(bind_unify_eq_none_iff c d e).2 hright] at hleft
        cases hleft
      | some r =>
        obtain ⟨u, hu, hl⟩ := Option.bind_eq_some_iff.1 hleft
        obtain ⟨v, hv, hr⟩ := Option.bind_eq_some_iff.1 hright
        rw [eq_combine_of_unify hl, eq_combine_of_unify hu, eq_combine_of_unify hr, eq_combine_of_unify hv,
          combine_assoc]

end Combine

end Compound

end ScssExtend
