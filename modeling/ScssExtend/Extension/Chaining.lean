import ScssExtend.Extension.Event

/-!
# Resolving compounds

`Table.extendCompound` lists the selectors that a table adds for a compound. An extension whose target the
compound contains is applied to it: the extender's subject is unified with what the target leaves of the
compound. The outcome is extended in turn, with the target among the seen ones, so every target is applied at
most once on a way and there are only finitely many ways. `extendCompoundEvents` lists the steps of this.
-/

namespace ScssExtend

namespace Compound

/-- Only a compound that constrains something, and is more than a lone `&`, is extended. -/
def isExtensible (c : Compound) : Bool :=
  !c.isEmpty && !c.isLoneParent

end Compound

/-- The compounds of a chain that may be extended. -/
def Complex.extensible (x : Complex) : List Compound :=
  x.compounds.filter Compound.isExtensible

namespace Extension

/-- What is left of a compound without the target. -/
def remainder (e : Extension) (c : Compound) : Compound :=
  c.minus e.target

/-- The last link of the extender; a table has no extender without one. -/
def subject (e : Extension) : Link :=
  e.extender.innermost?.getD ⟨.descendant, .empty⟩

/-- The compound that demands what the extender's subject and the remainder demand. -/
def unified? (e : Extension) (c : Compound) : Option Compound :=
  e.subject.compound.unify (e.remainder c)

/-- The extender with the unified compound as its subject. There is none when the two do not unify, or when
nothing would be demanded. -/
def outcome? (e : Extension) (c : Compound) : Option Complex :=
  match e.unified? c with
  | none => none
  | some u =>
    if u.isEmpty then none
    else some ⟨e.extender.links.dropLast ++ [⟨e.subject.combinator, u⟩]⟩

end Extension

namespace Table

/-- The extensions that are applied to a compound: its target is contained in the compound and not seen. -/
def candidates (t : Table) (seen : SeenSet) (c : Compound) : List Extension :=
  (t.lookupSubset c).filter fun e => !seen.contains e.target

/-- The number of extensions whose target is not seen. -/
def unseen (t : Table) (seen : SeenSet) : Nat :=
  (t.entries.filter fun e => !seen.contains e.target).length

/-- To see the target of an unseen extension leaves fewer unseen ones. -/
theorem unseen_insert_lt {t : Table} {seen : SeenSet} {e : Extension} (he : e ∈ t.entries)
    (hs : seen.contains e.target = false) : t.unseen (seen.insert e.target) < t.unseen seen := by
  have hsub : (t.entries.filter fun f => !(seen.insert e.target).contains f.target) =
      (t.entries.filter fun f => !seen.contains f.target).filter
        fun f => !(seen.insert e.target).contains f.target := by
    rw [List.filter_filter]
    congr 1
    funext f
    cases hf : seen.contains f.target with
    | false => simp
    | true => simp [OrderedSet.contains_insert_of_contains hf]
  unfold unseen
  rw [hsub, List.length_filter_lt_length_iff_exists]
  exact ⟨e, by simp [he, hs], by simp [OrderedSet.contains_insert_self]⟩

/-- A candidate's target is not seen yet, so that fewer are unseen behind it. -/
theorem unseen_lt_of_mem_candidates {t : Table} {seen : SeenSet} {c : Compound} {e : Extension}
    (h : e ∈ t.candidates seen c) : t.unseen (seen.insert e.target) < t.unseen seen := by
  obtain ⟨hm, hs⟩ := List.mem_filter.1 h
  exact unseen_insert_lt (mem_entries_of_mem_lookupSubset hm) (by simpa using hs)

/-- The selectors that the table adds for a compound, `seen` being the targets applied before: for each
candidate its outcome, followed by what is added for the compounds of the outcome. -/
def extendCompound (t : Table) (seen : SeenSet) (c : Compound) : List Complex :=
  (t.candidates seen c).attach.flatMap fun ⟨e, h⟩ =>
    have := unseen_lt_of_mem_candidates h
    match e.outcome? c with
    | none => []
    | some x => x :: x.extensible.flatMap (t.extendCompound (seen.insert e.target))
  termination_by t.unseen seen
  decreasing_by exact this

/-- The selectors that the table adds for the compounds of a chain. -/
def extendComplex (t : Table) (seen : SeenSet) (x : Complex) : List Complex :=
  x.extensible.flatMap (t.extendCompound seen)

/-- The steps of extending a compound, in their order. -/
def extendCompoundEvents (t : Table) (seen : SeenSet) (c : Compound) : List Event :=
  .extending c seen :: (t.candidates seen c).attach.flatMap fun ⟨e, h⟩ =>
    have := unseen_lt_of_mem_candidates h
    .matched c e :: .unified e (e.remainder c) (e.unified? c) ::
      match e.outcome? c with
      | none => []
      | some x => x.extensible.flatMap (t.extendCompoundEvents (seen.insert e.target))
  termination_by t.unseen seen
  decreasing_by exact this

/-- The steps of extending the compounds of a chain. -/
def extendComplexEvents (t : Table) (seen : SeenSet) (x : Complex) : List Event :=
  x.extensible.flatMap (t.extendCompoundEvents seen)

/-- What a table adds for a compound is, candidate by candidate, the outcome and what is added for it. -/
theorem extendCompound_eq (t : Table) (seen : SeenSet) (c : Compound) :
    t.extendCompound seen c = (t.candidates seen c).flatMap fun e =>
      match e.outcome? c with
      | none => []
      | some x => x :: t.extendComplex (seen.insert e.target) x := by
  rw [extendCompound, List.flatMap_subtype (g := fun e =>
    match e.outcome? c with
    | none => []
    | some x => x :: t.extendComplex (seen.insert e.target) x) fun _ _ => rfl,
    List.unattach_attach]

end Table

end ScssExtend
