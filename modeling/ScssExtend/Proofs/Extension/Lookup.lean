import Mathlib.Data.List.Induction
import ScssExtend.Extension.Chaining
import ScssExtend.Proofs.Selector.ComponentSets

/-!
# Looking up by the index

The index lists a place under a component exactly when the extension at that place has the component in its
target (`Index.mem_slots_ofList`). Hence a lookup by the index is a plain scan of the table
(`Table.lookupSubset_eq_filter`), and the candidates for a compound are the extensions whose target is
contained in it and not seen (`Table.mem_candidates`).
-/

namespace ScssExtend

namespace Index

/-- A row gets the place that is listed in it, and the others stay as they are. -/
lemma mem_lookup_addToRow {s u : Simple} {slot i : Nat} {rows : List (Simple × List Nat)} :
    i ∈ ((addToRow slot s rows).lookup u).getD [] ↔
      i ∈ (rows.lookup u).getD [] ∨ u = s ∧ i = slot := by
  induction rows with
  | nil =>
    by_cases hu : u = s
    · subst hu
      simp [addToRow]
    · have hb : (u == s) = false := by simpa using hu
      simp [addToRow, List.lookup_cons, hb, hu]
  | cons row rows ih =>
    obtain ⟨t, slots⟩ := row
    unfold addToRow
    by_cases hs : s = t
    · subst hs
      by_cases hu : u = s
      · subst hu
        simp only [if_true, List.lookup_cons_self, Option.getD_some, true_and]
        split
        · next h =>
          have := List.mem_of_getLast? h
          grind
        · simp
      · have hb : (u == s) = false := by simpa using hu
        simp [List.lookup_cons, hb, hu]
    · rw [if_neg hs]
      by_cases hu : u = t
      · subst hu
        simp [Ne.symm hs]
      · have hb : (u == t) = false := by simpa using hu
        simp only [List.lookup_cons, hb]
        exact ih

/-- A target is listed under each of its components. -/
lemma mem_slots_add {index : Index} {slot i : Nat} {target : Compound} {u : Simple} :
    i ∈ (index.add slot target).slots u ↔
      i ∈ index.slots u ∨ u ∈ target.components ∧ i = slot := by
  obtain ⟨rows⟩ := index
  obtain ⟨components⟩ := target
  simp only [slots, add]
  induction components generalizing rows with
  | nil => simp
  | cons s ss ih =>
    rw [List.foldl_cons, ih, mem_lookup_addToRow, List.mem_cons]
    tauto

/-- A place is listed under a component when the target of the extension there has that component. -/
lemma mem_slots_ofList {entries : List Extension} {i : Nat} {u : Simple} :
    i ∈ (ofList entries).slots u ↔ ∃ e, entries[i]? = some e ∧ u ∈ e.target.components := by
  induction entries using List.reverseRecOn with
  | nil => simp [ofList, slots, empty]
  | append_singleton entries e ih =>
    rw [ofList_concat, mem_slots_add, ih, List.getElem?_append]
    constructor
    · rintro (⟨f, hf, hu⟩ | ⟨hu, rfl⟩)
      · have hi := (List.getElem?_eq_some_iff.1 hf).1
        exact ⟨f, by rwa [if_pos hi], hu⟩
      · exact ⟨e, by simp, hu⟩
    · rintro ⟨f, hf, hu⟩
      split at hf
      · exact .inl ⟨f, hf, hu⟩
      · next hi =>
        obtain ⟨h, rfl⟩ := List.getElem?_eq_some_iff.1 hf
        simp only [List.length_singleton] at h
        exact .inr ⟨by simpa using hu, by omega⟩

end Index

/-- The elements that stand at the places of a list, in order, are the list. -/
lemma filterMap_getElem?_range {α : Type} (xs : List α) :
    (List.range xs.length).filterMap (fun i => xs[i]?) = xs := by
  induction xs using List.reverseRecOn with
  | nil => rfl
  | append_singleton xs x ih =>
    rw [List.length_append, List.length_singleton, List.range_succ, List.filterMap_append]
    congr 1
    · refine (List.filterMap_congr fun i hi => ?_).trans ih
      exact List.getElem?_append_left (List.mem_range.1 hi)
    · simp

namespace Table

/-- The places that a lookup finds, in increasing order: those of the extensions with a contained target. -/
lemma slots_eq_range_filter (t : Table) (query : Compound) :
    (OrderedSet.ofList ((query.components.flatMap t.index.slots).filter fun slot =>
      t.entries[slot]?.any fun e => e.target.isSubsetOf query)).toList =
    (List.range t.entries.length).filter fun slot =>
      t.entries[slot]?.any fun e => e.target.isSubsetOf query := by
  refine OrderedSet.eq_of_increasing (OrderedSet.increasing_ofList _) ?_ ?_
  · refine (List.pairwise_lt_range.imp ?_).filter _
    exact fun h => Nat.compare_eq_lt.2 h
  · intro slot
    rw [OrderedSet.mem_ofList, List.mem_filter, List.mem_filter, List.mem_range, List.mem_flatMap]
    refine and_congr_left fun h => ⟨?_, fun hlt => ?_⟩
    · rintro ⟨s, -, hs⟩
      rw [t.index_eq] at hs
      obtain ⟨e, he, -⟩ := Index.mem_slots_ofList.1 hs
      exact (List.getElem?_eq_some_iff.1 he).1
    · -- a target is never empty, so a contained one shares a component with the query
      obtain ⟨e, he, hsub⟩ := (Option.any_eq_true _ _).1 h
      obtain ⟨s, hs⟩ := List.exists_mem_of_ne_nil _ (t.proper e (List.mem_of_getElem? he)).1
      refine ⟨s, Compound.isSubsetOf_iff.1 hsub hs, ?_⟩
      rw [t.index_eq]
      exact Index.mem_slots_ofList.2 ⟨e, he, hs⟩

/-- A lookup by the index is a scan of the registered extensions. -/
lemma lookupSubset_eq_filter (t : Table) (query : Compound) :
    t.lookupSubset query = t.entries.filter fun e => e.target.isSubsetOf query := by
  unfold lookupSubset
  dsimp only
  rw [slots_eq_range_filter]
  conv_rhs => rw [← filterMap_getElem?_range t.entries, List.filter_filterMap]
  rw [List.filterMap_filter]
  refine List.filterMap_congr fun i _ => ?_
  cases t.entries[i]? with
  | none => rfl
  | some e => rw [Option.any_some, Option.filter_some]

/-- The candidates are the registered extensions whose target is included and not seen. -/
lemma candidates_eq_filter (t : Table) (seen : SeenSet) (c : Compound) : t.candidates seen c =
    t.entries.filter fun e => !seen.contains e.target && e.target.isSubsetOf c := by
  rw [candidates, lookupSubset_eq_filter, List.filter_filter]

/-- The candidates for a compound are the extensions whose target it contains and that is not seen. -/
lemma mem_candidates {t : Table} {seen : SeenSet} {c : Compound} {e : Extension} :
    e ∈ t.candidates seen c ↔
      e ∈ t.entries ∧ e.target.components ⊆ c.components ∧ seen.contains e.target = false := by
  rw [candidates_eq_filter, List.mem_filter, Bool.and_eq_true, Bool.not_eq_true', Compound.isSubsetOf_iff,
    and_comm (a := _ = false)]

end Table

end ScssExtend
