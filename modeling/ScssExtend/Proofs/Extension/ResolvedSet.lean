import ScssExtend.Extension.RuleOutcome
import ScssExtend.Proofs.FirstOccurrences
import ScssExtend.Proofs.Selector.ComponentSets

/-!
# A resolved list up to equivalence

Selectors are equivalent when their canonical forms are equal. The canonical forms in a resolved list are those
of what the table offers for the list (`Table.offered`), placeholders excepted, each of them once
(`Table.mem_map_canonical_resolveSelectors`, `Table.nodup_map_canonical_resolveSelectors`).
-/

namespace ScssExtend

/-! ## Canonical forms -/

/-- The canonical form of a compound has a placeholder if the compound has one. -/
lemma Compound.hasPlaceholder_canonical (c : Compound) : c.canonical.hasPlaceholder = c.hasPlaceholder := by
  rw [Bool.eq_iff_iff]
  simp only [hasPlaceholder, List.any_eq_true, mem_canonical]

namespace Complex

/-- The canonical form of a chain has a placeholder if the chain has one. -/
lemma hasPlaceholder_canonical (x : Complex) : x.canonical.hasPlaceholder = x.hasPlaceholder := by
  simp only [hasPlaceholder, compounds, canonical, List.map_map, List.any_map]
  congr 1
  funext l
  exact Compound.hasPlaceholder_canonical l.compound

/-- Chains are equivalent when their canonical forms are equal. -/
lemma eqv_iff {x y : Complex} : x.eqv y ↔ x.canonical = y.canonical :=
  beq_iff_eq

/-- Of equivalent selectors the first is kept. -/
lemma distinct_eq_eraseDupsBy (xs : List Complex) :
    distinct xs = xs.eraseDupsBy fun x y => x.canonical == y.canonical := by
  rw [← foldl_keep_eq_eraseDupsBy, distinct]
  congr 1
  funext kept x
  have heqv : (fun y : Complex => y.eqv x) = fun y => x.canonical == y.canonical :=
    funext fun y => Bool.beq_comm
  rw [← heqv]

/-- In canonical form the distinct selectors are those that come first. -/
lemma map_canonical_distinct (xs : List Complex) :
    (distinct xs).map canonical = (xs.map canonical).eraseDups := by
  rw [distinct_eq_eraseDupsBy, map_eraseDupsBy]

end Complex

namespace Table

variable {t : Table} {selectors : List Complex} {k : Complex}

/-- What a list is resolved to before repetitions and placeholders are removed: each selector, followed by what
the table adds for it. -/
def offered (t : Table) (selectors : List Complex) : List Complex :=
  selectors.flatMap fun x => x :: t.extendSelector x

/-- To remove placeholders is to remove the canonical forms with placeholders. -/
lemma map_canonical_resolveSelectors : (t.resolveSelectors selectors).map Complex.canonical =
    ((t.offered selectors).map Complex.canonical).eraseDups.filter fun k => !k.hasPlaceholder := by
  rw [← Complex.map_canonical_distinct, List.filter_map]
  congr 1
  refine List.filter_congr fun x _ => ?_
  rw [Function.comp_apply, Complex.hasPlaceholder_canonical]

/-- The resolved selectors are those offered, up to equivalence, except for those with placeholders. -/
lemma mem_map_canonical_resolveSelectors : k ∈ (t.resolveSelectors selectors).map Complex.canonical ↔
    k ∈ (t.offered selectors).map Complex.canonical ∧ k.hasPlaceholder = false := by
  rw [map_canonical_resolveSelectors, List.mem_filter, List.mem_eraseDups, Bool.not_eq_true']

/-- No two resolved selectors are equivalent. -/
lemma nodup_map_canonical_resolveSelectors :
    ((t.resolveSelectors selectors).map Complex.canonical).Nodup := by
  rw [map_canonical_resolveSelectors]
  exact (nodup_eraseDups _).filter _

end Table

end ScssExtend
