import Mathlib.Data.Finset.Card
import ScssExtend.Proofs.Extension.Registration
import ScssExtend.Proofs.Extension.Ways

/-!
# Chaining terminates

Extending a compound calls itself for larger and larger selectors. What bounds it are the open targets
(`Table.openTargets`), those of the table that are not seen yet, counted as component sets: to apply one leaves
fewer of them. So a recursion that is cut off below that depth is never cut off
(`Table.extendCompoundWithin_eq_some`), and the targets that are applied on a way are distinct open ones
(`Table.Way.nodup_targets`, `Table.Way.length_le`). `Table.chaining_terminates` is all of this together.
-/

namespace ScssExtend

namespace Table

/-- The component sets of the targets that are not seen. -/
def openTargets (t : Table) (seen : SeenSet) : Finset (Finset Simple) :=
  ((t.entries.filter fun e => !seen.contains e.target).map fun e => e.target.componentSet).toFinset

/-- What the table adds for a compound, by a recursion that is cut off, with `none`, where calls are nested deeper
than the given depth. -/
def extendCompoundWithin (t : Table) : Nat → SeenSet → Compound → Option (List Complex)
  | 0, _, _ => none
  | depth + 1, seen, c => (t.candidates seen c).flatMapM fun e =>
    match e.outcome? c with
    | none => some []
    | some x => (x.extensible.flatMapM (t.extendCompoundWithin depth (seen.insert e.target))).map (x :: ·)

/-- What the table adds for the compounds of a chain, by the same recursion. -/
def extendComplexWithin (t : Table) (depth : Nat) (seen : SeenSet) (x : Complex) : Option (List Complex) :=
  x.extensible.flatMapM (t.extendCompoundWithin depth seen)

variable {t : Table} {seen : SeenSet} {c : Compound}

/-! ## Open targets -/

/-- An open target is that of an extension whose target is not seen. -/
lemma mem_openTargets {τ : Finset Simple} : τ ∈ t.openTargets seen ↔
    ∃ e ∈ t.entries, seen.contains e.target = false ∧ e.target.componentSet = τ := by
  simp only [openTargets, List.mem_toFinset, List.mem_map, List.mem_filter, Bool.not_eq_true', and_assoc]

/-- To see a target is to see all targets with the same component set. -/
lemma contains_insert_eq_false {d : Compound} : (seen.insert c).contains d = false ↔
    d.componentSet ≠ c.componentSet ∧ seen.contains d = false := by
  rw [← Bool.not_eq_true, OrderedSet.contains_insert, Compound.compare_eq_iff_eqv,
    Compound.eqv_iff_componentSet_eq, not_or, Bool.not_eq_true]

/-- A target that is applied is open no longer. -/
lemma openTargets_insert_ssubset {e : Extension} (he : e ∈ t.candidates seen c) :
    t.openTargets (seen.insert e.target) ⊂ t.openTargets seen := by
  obtain ⟨hmem, -, hs⟩ := mem_candidates.1 he
  refine (Finset.ssubset_iff_of_subset fun τ hτ => ?_).2 ⟨e.target.componentSet, ?_, fun h => ?_⟩
  · obtain ⟨f, hf, hfs, rfl⟩ := mem_openTargets.1 hτ
    exact mem_openTargets.2 ⟨f, hf, (contains_insert_eq_false.1 hfs).2, rfl⟩
  · exact mem_openTargets.2 ⟨e, hmem, hs, rfl⟩
  · obtain ⟨f, -, hfs, heq⟩ := mem_openTargets.1 h
    exact (contains_insert_eq_false.1 hfs).1 heq

/-! ## The depth of the recursion -/

/-- If each result is there, so are all of them one behind the other. -/
lemma flatMapM_eq_some {α β : Type} {f : α → Option (List β)} {g : α → List β} {xs : List α}
    (h : ∀ x ∈ xs, f x = some (g x)) : xs.flatMapM f = some (xs.flatMap g) := by
  induction xs with
  | nil => rfl
  | cons x xs ih =>
    rw [List.flatMapM_cons, h x List.mem_cons_self, ih fun y hy => h y (List.mem_cons_of_mem _ hy)]
    rfl

/-- The recursion is not cut off at a depth above the number of open targets. -/
lemma extendCompoundWithin_eq_some {depth : Nat} (h : (t.openTargets seen).card < depth) :
    t.extendCompoundWithin depth seen c = some (t.extendCompound seen c) := by
  induction depth generalizing seen c with
  | zero => exact absurd h (Nat.not_lt_zero _)
  | succ depth ih =>
    rw [extendCompoundWithin, extendCompound_eq]
    refine flatMapM_eq_some fun e he => ?_
    have hcard := Finset.card_lt_card (openTargets_insert_ssubset he)
    cases e.outcome? c with
    | none => rfl
    | some x =>
      have hx : x.extensible.flatMapM (t.extendCompoundWithin depth (seen.insert e.target)) =
          some (t.extendComplex (seen.insert e.target) x) :=
        flatMapM_eq_some fun d _ => ih (by omega)
      simp only [hx, Option.map_some]

/-! ## The targets on a way -/

variable {es : List Extension} {y : Complex}

/-- The targets along a way are those of extensions that were not seen before. -/
lemma Way.unseen (w : t.Way seen c es y) : ∀ e ∈ es, e ∈ t.entries ∧ seen.contains e.target = false := by
  induction w with
  | last he _ =>
    obtain ⟨hmem, -, hs⟩ := mem_candidates.1 he
    exact List.forall_mem_singleton.2 ⟨hmem, hs⟩
  | step he _ _ _ ih =>
    obtain ⟨hmem, -, hs⟩ := mem_candidates.1 he
    refine List.forall_mem_cons.2 ⟨⟨hmem, hs⟩, fun f hf => ?_⟩
    exact ⟨(ih f hf).1, (contains_insert_eq_false.1 (ih f hf).2).2⟩

/-- No target comes twice on a way, whichever way it is written. -/
lemma Way.nodup_targets (w : t.Way seen c es y) : (es.map fun e => e.target.componentSet).Nodup := by
  induction w with
  | last _ _ => exact List.nodup_singleton _
  | step _ _ _ w ih =>
    refine List.nodup_cons.2 ⟨fun hmem => ?_, ih⟩
    obtain ⟨f, hf, heq⟩ := List.mem_map.1 hmem
    exact (contains_insert_eq_false.1 (w.unseen f hf).2).1 heq

/-- A way has no more steps than there are open targets. -/
lemma Way.length_le (w : t.Way seen c es y) : es.length ≤ (t.openTargets seen).card := by
  have hopen : (es.map fun e => e.target.componentSet).toFinset ⊆ t.openTargets seen := by
    intro τ hτ
    obtain ⟨e, he, rfl⟩ := List.mem_map.1 (List.mem_toFinset.1 hτ)
    exact mem_openTargets.2 ⟨e, (w.unseen e he).1, (w.unseen e he).2, rfl⟩
  calc es.length
    _ = (es.map fun e => e.target.componentSet).length := (List.length_map _).symm
    _ = (es.map fun e => e.target.componentSet).toFinset.card :=
      (List.toFinset_card_of_nodup w.nodup_targets).symm
    _ ≤ (t.openTargets seen).card := Finset.card_le_card hopen

/-- Calls are nested at most one deeper than there are open targets, so both recursions end, cut off or not. The
outcomes are those of the ways, and on a way distinct targets of the table are applied, none of them seen at the
start, so at most as many as are open. -/
theorem chaining_terminates (t : Table) (seen : SeenSet) :
    (∀ c, t.extendCompoundWithin ((t.openTargets seen).card + 1) seen c = some (t.extendCompound seen c)) ∧
    (∀ x, t.extendComplexWithin ((t.openTargets seen).card + 1) seen x = some (t.extendComplex seen x)) ∧
    (∀ c y, y ∈ t.extendCompound seen c ↔ ∃ es, t.Way seen c es y) ∧
    (∀ x y, y ∈ t.extendComplex seen x ↔ ∃ c ∈ x.extensible, ∃ es, t.Way seen c es y) ∧
    ∀ c es y, t.Way seen c es y →
      (es.map fun e => e.target.componentSet).Nodup ∧
      (∀ e ∈ es, e ∈ t.entries ∧ seen.contains e.target = false) ∧
      es.length ≤ (t.openTargets seen).card := by
  refine ⟨fun c => ?_, fun x => ?_, fun c y => mem_extendCompound_iff, fun x y => ?_, fun c es y w => ?_⟩
  · exact extendCompoundWithin_eq_some (Nat.lt_succ_self _)
  · exact flatMapM_eq_some fun c _ => extendCompoundWithin_eq_some (Nat.lt_succ_self _)
  · simp only [extendComplex, List.mem_flatMap, mem_extendCompound_iff]
  · exact ⟨w.nodup_targets, w.unseen, w.length_le⟩

/-- `.a.x` extends its own part `.a`, `.b.c` extends `.b.a`, and `.a.b` extends `.c`. -/
def knot : List Extension :=
  [.ofClasses [["a", "x"]] ["a"], .ofClasses [["b", "c"]] ["b", "a"], .ofClasses [["a", "b"]] ["c"]]

/-- From `.a.b` a way applies the whole knot, self-reference and cycle, and ends with `.a.b.x`. -/
theorem chaining_terminates_knotted :
    (registering knot).Way .empty ⟨[.className "a", .className "b"]⟩ knot (.ofClasses [["a", "b", "x"]]) ∧
      (knot.map fun e => e.target.componentSet).Nodup ∧
      knot.length ≤ ((registering knot).openTargets .empty).card := by
  have w : (registering knot).Way .empty ⟨[.className "a", .className "b"]⟩ knot
      (.ofClasses [["a", "b", "x"]]) := by
    refine .step (x := .ofClasses [["a", "x", "b"]]) (d := ⟨[.className "a", .className "x", .className "b"]⟩)
      ?_ ?_ ?_ (.step (x := .ofClasses [["b", "c", "x"]])
        (d := ⟨[.className "b", .className "c", .className "x"]⟩) ?_ ?_ ?_ (.last ?_ ?_))
    all_goals decide +kernel
  obtain ⟨hnodup, -, hlength⟩ := (chaining_terminates (registering knot) .empty).2.2.2.2 _ _ _ w
  exact ⟨w, hnodup, hlength⟩

end Table

end ScssExtend
