import ScssExtend.Proofs.Extension.Additions
import ScssExtend.Proofs.Extension.Walking

/-!
# What a rule's list is resolved to

A resolved list holds, up to equivalence and each once, the selectors of the list and what the table adds for
them, placeholders excepted, and nothing else. When it is equivalent to the list the rule is kept, and otherwise
the grammar is asked or the list is replaced: `Table.resolution_loses_and_repeats_nothing`.
-/

namespace ScssExtend

namespace Table

variable {t : Table} {selectors : List Complex}

/-- What is offered for a list is found in the resolved list, unless it has a placeholder. -/
lemma exists_eqv_of_mem_offered {x : Complex} (h : x ∈ t.offered selectors) (hx : x.hasPlaceholder = false) :
    ∃ y ∈ t.resolveSelectors selectors, y.eqv x := by
  have hmem : x.canonical ∈ (t.resolveSelectors selectors).map Complex.canonical := by
    refine mem_map_canonical_resolveSelectors.2 ⟨List.mem_map_of_mem h, ?_⟩
    rw [Complex.hasPlaceholder_canonical, hx]
  obtain ⟨y, hy, heq⟩ := List.mem_map.1 hmem
  exact ⟨y, hy, Complex.eqv_iff.2 heq⟩

/-- No two selectors of a resolved list are equivalent. -/
lemma pairwise_resolveSelectors : (t.resolveSelectors selectors).Pairwise fun x y => ¬x.eqv y := by
  have hnodup : ((t.resolveSelectors selectors).map Complex.canonical).Pairwise (· ≠ ·) :=
    nodup_map_canonical_resolveSelectors
  refine (List.pairwise_map.1 hnodup).imp fun hne heqv => ?_
  exact hne (Complex.eqv_iff.1 heqv)

/-- A list is kept if its selectors are equivalent to the resolved ones, one by one. -/
lemma resolved_eqv_iff {list : SelectorList} : (t.resolved list).eqv list ↔
    List.Forall₂ (fun x y => x.eqv y) (t.resolveSelectors list.selectors) list.selectors := by
  simp only [resolved, SelectorList.eqv, BEq.rfl, Bool.and_true, beq_iff_eq, Complex.eqv_iff]
  rw [← List.forall₂_eq_eq_eq, List.forall₂_map_left_iff, List.forall₂_map_right_iff]

/-- A rule with selectors is kept, and nothing is asked or replaced, exactly when its list is resolved to an
equivalent one. -/
lemma resolveRule_kept_iff (grammar : SelectorGrammar) {list : SelectorList} (position : Position)
    (hne : list.selectors ≠ []) :
    ((t.resolveRule grammar list position).1 = .kept ↔ (t.resolved list).eqv list) ∧
      ((∀ event ∈ (t.resolveRule grammar list position).2, event.isInner) ↔ (t.resolved list).eqv list) := by
  rw [resolveRule_eq hne]
  split
  · next heqv => exact ⟨iff_of_true rfl heqv, iff_of_true (fun _ => isInner_of_mem_steps) heqv⟩
  · next heqv =>
    have outer {events : List Event} {event : Event} (hevent : event.isInner = false) :
        ¬∀ e ∈ events ++ [event], e.isInner := by
      intro h
      rw [h event (List.mem_append_right _ (List.mem_singleton_self _))] at hevent
      cases hevent
    split
    · exact ⟨iff_of_false nofun heqv, iff_of_false (outer rfl) heqv⟩
    · cases grammar (t.resolved list).text list.position with
      | error source => exact ⟨iff_of_false nofun heqv, iff_of_false (outer rfl) heqv⟩
      | ok after => exact ⟨iff_of_false nofun heqv, iff_of_false (outer rfl) heqv⟩

/-- A resolved list holds no two equivalent selectors and none with a placeholder. Up to equivalence it holds every
other selector of the list and every other one that the table adds for a selector of the list, with or without a
placeholder, and nothing else. A rule that has selectors is kept, and the grammar is not asked and nothing
replaced, exactly when its list is resolved to an equivalent one. -/
theorem resolution_loses_and_repeats_nothing (t : Table) (selectors : List Complex) :
    (t.resolveSelectors selectors).Pairwise (fun x y => ¬x.eqv y) ∧
    (∀ x ∈ t.resolveSelectors selectors, x.hasPlaceholder = false) ∧
    (∀ x ∈ selectors, x.hasPlaceholder = false → ∃ y ∈ t.resolveSelectors selectors, y.eqv x) ∧
    (∀ x ∈ selectors, ∀ g ∈ t.extendSelector x, g.hasPlaceholder = false →
      ∃ y ∈ t.resolveSelectors selectors, y.eqv g) ∧
    (∀ y ∈ t.resolveSelectors selectors, y ∈ selectors ∨ ∃ x ∈ selectors, y ∈ t.extendSelector x) ∧
    ∀ (grammar : SelectorGrammar) (list : SelectorList) (position : Position),
      list.selectors = selectors → selectors ≠ [] →
      ((t.resolveRule grammar list position).1 = .kept ↔
        List.Forall₂ (fun x y => x.eqv y) (t.resolveSelectors selectors) selectors) ∧
      ((∀ event ∈ (t.resolveRule grammar list position).2, event.isInner) ↔
        List.Forall₂ (fun x y => x.eqv y) (t.resolveSelectors selectors) selectors) ∧
      (List.Forall₂ (fun x y => x.eqv y) (t.resolveSelectors selectors) selectors →
        t.rewrite grammar ⟨list, position⟩ = ⟨list, position⟩) := by
  have offered_self {x : Complex} (hx : x ∈ selectors) : x ∈ t.offered selectors :=
    List.mem_flatMap.2 ⟨x, hx, List.mem_cons_self⟩
  have offered_added {x g : Complex} (hx : x ∈ selectors) (hg : g ∈ t.extendSelector x) :
      g ∈ t.offered selectors :=
    List.mem_flatMap.2 ⟨x, hx, List.mem_cons_of_mem _ hg⟩
  refine ⟨pairwise_resolveSelectors, ?_, fun x hx => exists_eqv_of_mem_offered (offered_self hx),
    fun x hx g hg => exists_eqv_of_mem_offered (offered_added hx hg), ?_, ?_⟩
  · intro x hx
    simpa using (List.mem_filter.1 hx).2
  · intro y hy
    obtain h | ⟨x, hx, es, hadds⟩ := mem_or_adds_of_mem_resolveSelectors hy
    · exact .inl h
    · exact .inr ⟨x, hx, mem_extendSelector.2 ⟨es, hadds⟩⟩
  · rintro grammar list position rfl hne
    obtain ⟨hkept, hinner⟩ := resolveRule_kept_iff grammar position hne
    rw [← resolved_eqv_iff]
    refine ⟨hkept, hinner, fun heqv => ?_⟩
    rw [rewrite, hkept.2 heqv]
    rfl

/-- `.b` extends `%p`, and `.c` extends `.b`. -/
def placeholderTable : Table :=
  registering [⟨.ofClasses [["b"]], ⟨[.placeholder "p"]⟩, .start⟩, .ofClasses [["c"]] ["b"]]

/-- The list `%p, .b, .c.c` is resolved to `.b, .c`, of which both come from the placeholder. So is the list
`.b, .c.c`, which is kept as it is. -/
theorem resolution_loses_and_repeats_nothing_placeholder :
    let p : Complex := .ofCompound ⟨[.placeholder "p"]⟩
    let b : Complex := .ofClasses [["b"]]
    let c : Complex := .ofClasses [["c"]]
    let cc : Complex := .ofClasses [["c", "c"]]
    placeholderTable.resolveSelectors [p, b, cc] = [b, c] ∧
      (∃ y ∈ placeholderTable.resolveSelectors [p, b, cc], y.eqv cc) ∧
      (c ∈ placeholderTable.extendSelector p ∧ ∃ y ∈ placeholderTable.resolveSelectors [p, b, cc], y.eqv c) ∧
      placeholderTable.resolveSelectors [b, cc] = [b, c] ∧
      (placeholderTable.resolveRule SelectorList.parse ⟨[b, cc], .start⟩ .start).1 = .kept := by
  intro p b c cc
  have hresolved : placeholderTable.resolveSelectors [b, cc] = [b, c] := by decide +kernel
  have hadded : c ∈ placeholderTable.extendSelector p := by decide +kernel
  obtain ⟨-, -, hself, hgenerated, -, -⟩ :=
    resolution_loses_and_repeats_nothing placeholderTable [p, b, cc]
  obtain ⟨-, -, -, -, -, hrule⟩ := resolution_loses_and_repeats_nothing placeholderTable [b, cc]
  refine ⟨by decide +kernel, hself cc (by decide) (by decide), ⟨hadded, hgenerated p (by decide) c hadded (by decide)⟩,
    hresolved, (hrule SelectorList.parse ⟨[b, cc], .start⟩ .start rfl (by decide)).1.2 ?_⟩
  rw [hresolved]
  exact .cons (by decide) (.cons (by decide) .nil)

end Table

end ScssExtend
