import ScssExtend.Proofs.Extension.Lookup
import ScssExtend.Proofs.FirstOccurrences

/-!
# What is registered and what is found

A table that is filled by insertions (`Table.registering`) holds the proper ones of the inserted extensions, of
equivalent ones only the first (`Table.entries_registering`). The lookups of such a table are plain scans of
these extensions (`Table.lookup_registering`).
-/

namespace ScssExtend

namespace Extension

/-- What makes extensions equivalent: their component sets, wherever they were written. -/
def key (e : Extension) : Compound × Complex :=
  (e.target.canonical, e.extender.canonical)

/-- Two extensions are equivalent when they have the same key. -/
lemma eqv_eq_key_beq : Extension.eqv = fun e f => e.key == f.key :=
  rfl

end Extension

namespace Table

/-- The table after the insertion of extensions, one after the other. -/
def registering (es : List Extension) : Table :=
  es.foldl insert empty

/-- A proper extension that is equivalent to no registered one comes to the end of the table. -/
lemma entries_insert_eq (t : Table) (e : Extension) :
    (t.insert e).entries =
      if e.IsProper then (if t.entries.any e.eqv then t.entries else t.entries ++ [e]) else t.entries := by
  unfold insert knows
  split
  · split <;> rfl
  · rfl

/-- Registering keeps the proper extensions, each where it comes first. -/
lemma entries_registering (es : List Extension) :
    (registering es).entries = (es.filter fun e => e.IsProper).eraseDupsBy Extension.eqv := by
  rw [← foldl_keep_eq_eraseDupsBy, List.foldl_filter]
  have general (t : Table) : (es.foldl insert t).entries = es.foldl (fun kept e =>
      if e.IsProper then (if kept.any e.eqv then kept else kept ++ [e]) else kept) t.entries := by
    induction es generalizing t with
    | nil => rfl
    | cons e es ih => rw [List.foldl_cons, List.foldl_cons, ih, entries_insert_eq]
  rw [registering, general]
  simp only [decide_eq_true_eq]
  rfl

/-- No extension is registered twice. -/
lemma nodup_entries_registering (es : List Extension) : (registering es).entries.Nodup := by
  refine List.Nodup.of_map Extension.key ?_
  rw [entries_registering, Extension.eqv_eq_key_beq, map_eraseDupsBy]
  exact nodup_eraseDups _

/-- The inserted extensions that are registered are the proper ones, of equivalent ones the first. A lookup finds,
in the order of registration and once each, those of them whose target is within the query, and an exact lookup
finds those among what it finds whose target has the components of the query. -/
theorem lookup_registering (es : List Extension) :
    (registering es).entries = (es.filter fun e => e.IsProper).eraseDupsBy Extension.eqv ∧
    ∀ query : Compound,
      (registering es).lookupSubset query =
          (registering es).entries.filter (fun e => e.target.componentSet ⊆ query.componentSet) ∧
        ((registering es).lookupSubset query).Nodup ∧
        (registering es).lookupExact query =
          ((registering es).lookupSubset query).filter
            fun e => e.target.componentSet = query.componentSet := by
  refine ⟨entries_registering es, fun query => ⟨?_, ?_, ?_⟩⟩
  · rw [lookupSubset_eq_filter]
    refine List.filter_congr fun e _ => ?_
    rw [Bool.eq_iff_iff, decide_eq_true_iff, Compound.isSubsetOf_iff_componentSet_subset]
  · rw [lookupSubset_eq_filter]
    exact (nodup_entries_registering es).filter _
  · rw [lookupSubset_eq_filter, List.filter_filter, lookupExact]
    refine List.filter_congr fun e _ => ?_
    rw [Bool.eq_iff_iff, Bool.and_eq_true, decide_eq_true_iff, Compound.eqv_iff_componentSet_eq,
      Compound.isSubsetOf_iff_componentSet_subset]
    exact ⟨fun h => ⟨h, h.subset⟩, And.left⟩

end Table

end ScssExtend
