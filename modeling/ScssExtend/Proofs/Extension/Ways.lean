import ScssExtend.Proofs.Extension.Lookup

/-!
# Ways through chaining

A `Table.Way` is one path of the recursion that extends a compound: the extensions applied on it, in order,
and the selector that the last of them makes. What a table adds for a compound is what its ways make
(`Table.mem_extendCompound_iff`), so facts about the results are proved by induction on the way.
-/

namespace ScssExtend

/-- The chain of compounds of classes, each a descendant of the one before. -/
def Complex.ofClasses (names : List (List String)) : Complex :=
  ⟨names.map fun ns => ⟨.descendant, ⟨ns.map .className⟩⟩⟩

/-- The extension of a compound of classes by a chain of compounds of classes. -/
def Extension.ofClasses (extender : List (List String)) (target : List String) : Extension :=
  ⟨.ofClasses extender, ⟨target.map .className⟩, .start⟩

/-- Applying an extension that has an outcome puts the unified compound in the place of the extender's
subject. -/
lemma Extension.outcome?_eq_some {e : Extension} {c : Compound} {x : Complex} :
    e.outcome? c = some x ↔ ∃ u, e.unified? c = some u ∧ u.components ≠ [] ∧
      x = ⟨e.extender.links.dropLast ++ [⟨e.subject.combinator, u⟩]⟩ := by
  unfold outcome?
  cases e.unified? c with
  | none => simp
  | some u =>
    simp only [Option.some.injEq, exists_eq_left']
    cases hu : u.components with
    | nil => simp [Compound.isEmpty, hu]
    | cons s ss => simp [Compound.isEmpty, hu, eq_comm]

namespace Table

/-- One path of the recursion from a compound, the targets in `seen` being applied before: the extensions
applied on it, and the selector that it ends with. -/
inductive Way (t : Table) : SeenSet → Compound → List Extension → Complex → Prop where
  | last {seen c e x} :
    e ∈ t.candidates seen c →
    e.outcome? c = some x →
    Way t seen c [e] x
  | step {seen c e x d es y} :
    e ∈ t.candidates seen c →
    e.outcome? c = some x →
    d ∈ x.extensible →
    Way t (seen.insert e.target) d es y →
    Way t seen c (e :: es) y

variable {t : Table} {seen : SeenSet} {c : Compound} {y : Complex}

/-- What one candidate contributes: its outcome, and what is added for the compounds of the outcome. -/
lemma mem_extendCompound :
    y ∈ t.extendCompound seen c ↔ ∃ e ∈ t.candidates seen c, ∃ x, e.outcome? c = some x ∧
      (y = x ∨ ∃ d ∈ x.extensible, y ∈ t.extendCompound (seen.insert e.target) d) := by
  rw [extendCompound_eq, List.mem_flatMap]
  constructor
  · rintro ⟨e, he, hy⟩
    cases hx : e.outcome? c with
    | none => simp [hx] at hy
    | some x =>
      simp only [hx, List.mem_cons, extendComplex, List.mem_flatMap] at hy
      exact ⟨e, he, x, hx, hy⟩
  · rintro ⟨e, he, x, hx, hy⟩
    refine ⟨e, he, ?_⟩
    simpa only [hx, List.mem_cons, extendComplex, List.mem_flatMap] using hy

/-- What a way ends in is added for the compound. -/
lemma Way.mem_extendCompound {es : List Extension} (w : t.Way seen c es y) :
    y ∈ t.extendCompound seen c := by
  induction w with
  | last he hx => exact Table.mem_extendCompound.2 ⟨_, he, _, hx, .inl rfl⟩
  | step he hx hd _ ih => exact Table.mem_extendCompound.2 ⟨_, he, _, hx, .inr ⟨_, hd, ih⟩⟩

/-- What a table adds for a compound is what the ways from the compound end with. -/
lemma mem_extendCompound_iff : y ∈ t.extendCompound seen c ↔ ∃ es, t.Way seen c es y := by
  refine ⟨?_, fun ⟨_, w⟩ => w.mem_extendCompound⟩
  induction hn : t.unseen seen using Nat.strongRecOn generalizing seen c with
  | _ n ih =>
    intro hy
    obtain ⟨e, he, x, hx, rfl | ⟨d, hd, hy⟩⟩ := mem_extendCompound.1 hy
    · exact ⟨_, .last he hx⟩
    · obtain ⟨es, w⟩ := ih _ (hn ▸ unseen_lt_of_mem_candidates he) rfl hy
      exact ⟨_, .step he hx hd w⟩

end Table

end ScssExtend
