import ScssExtend.Proofs.Extension.Composition
import ScssExtend.Proofs.Selector.Combination
import ScssExtend.Proofs.Selector.Stability

/-!
# Reading the text of unified compounds

A compound is read back from its text as itself exactly when it is well formed (`Compound.readsBack_iff`). What two
such compounds unify into has one type or `*` at most and is arranged, so that its text is read back as well, with
one exception: a type that comes to stand behind `&` and begins with no ASCII letter would be a suffix there, and the
text is refused (`Compound.unified_readsBack_iff`).
-/

namespace ScssExtend

/-- The list of one selector that consists of the compound. -/
def SelectorList.ofCompound (c : Compound) (position : Position) : SelectorList :=
  ⟨[Complex.ofCompound c], position⟩

namespace Compound

variable {c d u : Compound} {position : Position}

/-! ## Compounds that are read back -/

/-- The text of the compound, read at this place, is one selector with one link, which has just these components. -/
def ReadsBack (c : Compound) (position : Position) : Prop :=
  ∃ combinator, SelectorList.parse c.text position = .ok ⟨[⟨[⟨combinator, c⟩]⟩], position⟩

/-- The text of a list made of one compound is that of the compound. -/
lemma text_ofCompound (c : Compound) (position : Position) :
    (SelectorList.ofCompound c position).text = c.text := by
  rw [← String.toList_inj, SelectorList.ofCompound, SelectorList.toList_selectors, Complex.ofCompound,
    Grammar.toList_complex]
  simp [Combinator.leadingText, Grammar.chainText, Grammar.furtherText]

/-- The components of a list made of one compound are those of the compound. -/
lemma components_ofCompound (c : Compound) (position : Position) :
    (SelectorList.ofCompound c position).components = c.components := by
  simp [SelectorList.ofCompound, SelectorList.components, Complex.ofCompound, Complex.components]

/-- A list made of a composed compound is composed. -/
lemma isComposed_ofCompound (h : c.IsComposed) (position : Position) :
    (SelectorList.ofCompound c position).IsComposed :=
  ⟨List.cons_ne_nil _ _, List.forall_mem_singleton.2
    ⟨List.cons_ne_nil _ _, List.forall_mem_singleton.2 h⟩⟩

/-- What the text of an arranged compound is read as. -/
lemma parse_text_eq_ok_iff (hc : c.IsComposed) (ha : c.IsArranged) {l : SelectorList} :
    SelectorList.parse c.text position = .ok l ↔
      (∀ s ∈ c.components, s.IsReadable) ∧ SelectorList.ofCompound c.reread position = l := by
  have harranged : ∀ x ∈ (SelectorList.ofCompound c position).selectors, ∀ k ∈ x.links,
      k.compound.IsArranged :=
    List.forall_mem_singleton.2 (List.forall_mem_singleton.2 ha)
  rw [← text_ofCompound c position, ← components_ofCompound c position]
  exact SelectorList.parse_text_eq_ok_iff (isComposed_ofCompound hc position) harranged

/-- A compound is read back from its text exactly if it is well-formed. -/
lemma readsBack_iff : c.ReadsBack position ↔ c.IsWellFormed := by
  constructor
  · rintro ⟨combinator, h⟩
    have hc : c.IsComposed := ((SelectorList.isComposed_of_parse h).selectors _
      (List.mem_singleton_self _)).compounds _ (List.mem_singleton_self _)
    have ha : c.IsArranged := SelectorList.isArranged_of_parse h _ (List.mem_singleton_self _) _
      (List.mem_singleton_self _)
    obtain ⟨-, heq⟩ := (parse_text_eq_ok_iff hc ha).1 h
    have hself : combinator = .descendant ∧ c = c.reread := by
      simpa [SelectorList.ofCompound, Complex.ofCompound, eq_comm] using heq
    rw [hself.2]
    exact isWellFormed_reread hc ha
  · intro h
    refine ⟨.descendant, (parse_text_eq_ok_iff h.isComposed h.isArranged).2 ⟨fun s hs => ?_, ?_⟩⟩
    · exact (h.components s hs).isStable.isReadable
    · rw [h.reread_eq]
      rfl

/-! ## Suffixes of `&` -/

/-- One compound has `&`, of which a type of the other, beginning with no ASCII letter, would be a suffix. -/
def SuffixedBy (c d : Compound) : Prop :=
  .parent ∈ c.components ∧ ∃ name, .type name ∈ d.components ∧ ∃ ch ∈ name.toList.head?, ch.isAlpha = false

/-- The types of a compound are all among its leading components. -/
lemma type_mem_leads {name : String} : .type name ∈ c.leads ↔ .type name ∈ c.components := by
  simp [leads, Simple.placement]

/-- The leading components are `*` and types. -/
lemma universal_or_type_of_mem_leads {s : Simple} (h : s ∈ c.leads) :
    s = .universal ∨ ∃ name, s = .type name :=
  Simple.placement_eq_one.1 (of_decide_eq_true (List.mem_filter.1 h).2)

/-- An arranged compound has at most one type or `*`. -/
lemma IsArranged.exists_leads_eq (h : c.IsArranged) : ∃ lead : Option Simple, c.leads = lead.toList := by
  obtain ⟨n, lead, others, heq, hlead, ho, -⟩ := h
  refine ⟨lead, leads_eq heq (fun s hs => List.eq_of_mem_replicate hs) (fun s hs => ?_) ho⟩
  exact Simple.placement_eq_one.2 (hlead s (Option.mem_toList.1 hs))

section Led

variable {lead : Option Simple} (h : c.IsLed) (hlead : c.leads = lead.toList)
include h hlead

/-- The text is refused if `&` has a suffix. -/
lemma not_isReadable_of_suffixedBy (hsuffix : c.SuffixedBy c) : ¬c.IsReadable := by
  obtain ⟨hparent, name, hname, ch, hch, hsuffix⟩ := hsuffix
  rw [← type_mem_leads, hlead, Option.mem_toList] at hname
  obtain ⟨parents, leads, others, heq, hp, hl, ho⟩ := h
  have hfirst : c.components.findSome? Simple.typeName? = some name := by
    rw [findSome?_typeName?_eq heq hp ho, ← leads_eq heq hp hl ho, hlead, hname]
    rfl
  intro hread
  rw [hread.1 hparent name hfirst ch hch] at hsuffix
  cases hsuffix

/-- With one type or `*` at most, the compound is arranged unless `&` has a suffix. -/
lemma isArranged_of_not_suffixedBy (hsuffix : ¬c.SuffixedBy c) : c.IsArranged := by
  obtain ⟨parents, leads, others, heq, hp, hl, ho⟩ := h
  rw [leads_eq heq hp hl ho] at hlead
  subst hlead
  refine ⟨parents.length, lead, others, ?_, fun s hs => ?_, ho, fun hpos name hname ch hch => ?_⟩
  · rw [← List.eq_replicate_of_mem hp, heq]
  · exact Simple.placement_eq_one.1 (hl s (Option.mem_toList.2 hs))
  · by_contra hnot
    refine hsuffix ⟨?_, name, ?_, ch, hch, eq_false_of_ne_true hnot⟩
    · exact (parent_mem_iff heq hp hl ho).2 (List.ne_nil_of_length_pos hpos)
    · obtain ⟨s, hs, hname⟩ := Option.bind_eq_some_iff.1 hname
      obtain rfl | ⟨name', rfl⟩ := Simple.placement_eq_one.1 (hl s (Option.mem_toList.2 hs))
      · cases hname
      · cases hname
        rw [heq]
        simp [hs]

end Led

/-- In a well-formed compound no type is a suffix of `&`. -/
lemma IsWellFormed.not_suffixedBy (h : c.IsWellFormed) : ¬c.SuffixedBy c := by
  obtain ⟨lead, hlead⟩ := h.isArranged.exists_leads_eq
  exact fun hsuffix => not_isReadable_of_suffixedBy h.isArranged.isLed hlead hsuffix h.isReadable

/-! ## The type or `*` of a unified compound -/

/-- Dropping `*` from the components drops it from the leading ones. -/
lemma leads_dropUniversal (ss : List Simple) :
    leads ⟨dropUniversal ss⟩ = dropUniversal (leads ⟨ss⟩) := by
  have hmem : (∃ s ∈ leads ⟨ss⟩, s.typeName?.isSome) ↔ ∃ s ∈ ss, s.typeName?.isSome := by
    refine exists_congr fun s => and_congr_left fun hs => ?_
    rw [leads, List.mem_filter, and_iff_left_iff_imp]
    intro _
    cases s with
    | type name => rfl
    | _ => cases hs
  by_cases h : ∃ s ∈ ss, s.typeName?.isSome
  · rw [dropUniversal_of_exists h, dropUniversal_of_exists (hmem.2 h), leads, leads, List.filter_filter,
      List.filter_filter]
    simp only [Bool.and_comm]
  · rw [dropUniversal_of_forall h, dropUniversal_of_forall (mt hmem.1 h)]

/-- The types of a combined compound are those of both sides, and `*` if there is none. -/
lemma leads_combine (hc : c.components ≠ []) (hd : d.components ≠ []) :
    (c.combine d).leads = dropUniversal (addMissing c.leads d.leads) := by
  have hplace (ss : List Simple) : leads ⟨ss⟩ = ss.filter fun s => s.placement == 1 := rfl
  rw [combine_eq hc hd, settle, hplace, filter_placement_arrange, ← hplace, leads_dropUniversal, hplace,
    filter_addMissing]
  rfl

/-- The type names of a compound are those of its leading components. -/
lemma mem_names_type {name : String} : name ∈ c.names .type ↔ .type name ∈ c.leads := by
  rw [mem_names, type_mem_leads]
  refine ⟨fun ⟨s, hs, hname⟩ => ?_, fun h => ⟨_, h, rfl⟩⟩
  obtain ⟨-, rfl⟩ | ⟨hk, -⟩ | ⟨hk, -⟩ := ExclusiveKind.name?_eq_some_iff.1 hname
  · exact hs
  · cases hk
  · cases hk

/-- With at most one leading component there is at most one type name. -/
lemma hasOneName_type {lead : Option Simple} (h : c.leads = lead.toList) : HasOneName .type c := by
  intro m hm n hn
  rw [mem_names_type, h, Option.mem_toList] at hm hn
  cases hm.symm.trans hn
  rfl

/-- Of `*` and a type, or of two equal ones, one is left. -/
lemma exists_dropUniversal_addMissing_eq {x y : Option Simple}
    (hx : ∀ s ∈ x, s = .universal ∨ ∃ name, s = .type name)
    (hy : ∀ s ∈ y, s = .universal ∨ ∃ name, s = .type name)
    (hsame : ∀ m n, x = some (.type m) → y = some (.type n) → m = n) :
    ∃ lead : Option Simple, dropUniversal (addMissing x.toList y.toList) = lead.toList := by
  have hcases {z : Option Simple} (hz : ∀ s ∈ z, s = .universal ∨ ∃ name, s = .type name) :
      z = none ∨ z = some .universal ∨ ∃ name, z = some (.type name) := by
    cases z with
    | none => exact .inl rfl
    | some s => simpa using hz s rfl
  obtain rfl | rfl | ⟨m, rfl⟩ := hcases hx
  · obtain rfl | rfl | ⟨n, rfl⟩ := hcases hy
    · exact ⟨none, rfl⟩
    · exact ⟨some .universal, rfl⟩
    · exact ⟨some (.type n), rfl⟩
  · obtain rfl | rfl | ⟨n, rfl⟩ := hcases hy
    · exact ⟨some .universal, rfl⟩
    · exact ⟨some .universal, rfl⟩
    · exact ⟨some (.type n), rfl⟩
  · obtain rfl | rfl | ⟨n, rfl⟩ := hcases hy
    · exact ⟨some (.type m), rfl⟩
    · exact ⟨some (.type m), rfl⟩
    · obtain rfl := hsame m n rfl rfl
      rw [Option.toList_some, addMissing_singleton_of_mem (List.mem_singleton_self _)]
      exact ⟨some (.type m), rfl⟩

/-- Unifying arranged compounds leaves at most one type or `*`. -/
lemma exists_leads_unify_eq (hc : c.IsArranged) (hd : d.IsArranged) (hcne : c.components ≠ [])
    (hdne : d.components ≠ []) (h : c.unify d = some u) : ∃ lead : Option Simple, u.leads = lead.toList := by
  obtain ⟨x, hx⟩ := hc.exists_leads_eq
  obtain ⟨y, hy⟩ := hd.exists_leads_eq
  have hone := hasOneName_unify (hasOneName_type hx) (hasOneName_type hy) h
  rw [eq_combine_of_unify h, leads_combine hcne hdne, hx, hy]
  refine exists_dropUniversal_addMissing_eq (fun s hs => ?_) (fun s hs => ?_) fun m n hm hn => ?_
  · exact universal_or_type_of_mem_leads (hx ▸ Option.mem_toList.2 hs)
  · exact universal_or_type_of_mem_leads (hy ▸ Option.mem_toList.2 hs)
  · have hm : m ∈ u.names .type := (mem_names_unify h).2 (.inl (mem_names_type.2 (by simp [hx, hm])))
    have hn : n ∈ u.names .type := (mem_names_unify h).2 (.inr (mem_names_type.2 (by simp [hy, hn])))
    exact hone m hm n hn

/-! ## What unified compounds are read as -/

/-- Unification keeps `&` and types, and neither side alone has a suffix. -/
lemma suffixedBy_self_iff (hc : ¬c.SuffixedBy c) (hd : ¬d.SuffixedBy d) (h : c.unify d = some u) :
    u.SuffixedBy u ↔ c.SuffixedBy d ∨ d.SuffixedBy c := by
  constructor
  · rintro ⟨hparent, name, hname, hsuffix⟩
    obtain hparent | hparent := mem_or_mem_of_unify h hparent
    · obtain hname | hname := mem_or_mem_of_unify h hname
      · exact absurd ⟨hparent, name, hname, hsuffix⟩ hc
      · exact .inl ⟨hparent, name, hname, hsuffix⟩
    · obtain hname | hname := mem_or_mem_of_unify h hname
      · exact .inr ⟨hparent, name, hname, hsuffix⟩
      · exact absurd ⟨hparent, name, hname, hsuffix⟩ hd
  · rintro (⟨hparent, name, hname, hsuffix⟩ | ⟨hparent, name, hname, hsuffix⟩)
    · exact ⟨mem_of_unify h (.inl hparent) nofun, name, mem_of_unify h (.inr hname) nofun, hsuffix⟩
    · exact ⟨mem_of_unify h (.inr hparent) nofun, name, mem_of_unify h (.inl hname) nofun, hsuffix⟩

/-- Compounds that are read back unify into one that is read back, at any place, unless a type of one side would be
a suffix of `&` on the other side; then the text is refused. -/
theorem unified_readsBack_iff {p q : Position} (hc : c.ReadsBack p) (hd : d.ReadsBack q)
    (h : c.unify d = some u) (position : Position) :
    (u.ReadsBack position ↔ ¬(c.SuffixedBy d ∨ d.SuffixedBy c)) ∧
    (c.SuffixedBy d ∨ d.SuffixedBy c → ∃ error, SelectorList.parse u.text position = .error error) := by
  have hc := readsBack_iff.1 hc
  have hd := readsBack_iff.1 hd
  have hu : u.IsComposed := by
    refine hc.isComposed.unify hd.isComposed.isSpelled h ?_
    rw [eq_combine_of_unify h]
    exact combine_ne_nil hc.nonempty
  have hwell : ∀ s ∈ u.components, s.IsWellFormed := fun s hs =>
    (mem_or_mem_of_unify h hs).elim (hc.components s) (hd.components s)
  obtain ⟨lead, hlead⟩ := exists_leads_unify_eq hc.isArranged hd.isArranged hc.nonempty hd.nonempty h
  rw [readsBack_iff, ← suffixedBy_self_iff hc.not_suffixedBy hd.not_suffixedBy h]
  refine ⟨⟨fun hu => hu.not_suffixedBy, fun hsuffix => ?_⟩, fun hsuffix => ?_⟩
  · exact ⟨hu.nonempty, hwell, isArranged_of_not_suffixedBy hu.isLed hlead hsuffix⟩
  · have hcomposed : ∀ x ∈ (SelectorList.ofCompound u position).selectors, x.IsComposed :=
      (isComposed_ofCompound hu position).selectors
    have hbad : ∃ x ∈ (SelectorList.ofCompound u position).selectors, ¬x.IsReadable :=
      ⟨_, List.mem_singleton_self _, fun hread =>
        not_isReadable_of_suffixedBy hu.isLed hlead hsuffix (hread _ (List.mem_singleton_self _))⟩
    rw [← text_ofCompound u position]
    exact SelectorList.parse_text_error hcomposed hbad position

/-- A compound with several `&` and an escaped name, and one with a type, a quoted value and a pseudo-element. -/
theorem unified_readsBack_iff_nested : ∃ c d u : Compound, c.text = "&&.a\\.b" ∧ d.text = "h1[x=\"p q\"]::before" ∧
    c.ReadsBack .start ∧ d.ReadsBack .start ∧ c.unify d = some u ∧
    u.text = "&&h1.a\\.b[x=\"p q\"]::before" ∧ u.ReadsBack .start := by
  let c : Compound := ⟨[.parent, .parent, .className "a\\.b"]⟩
  let d : Compound := ⟨[.type "h1", .attr "x" (some ⟨.equals, "p q"⟩), .pseudoElement "before" none]⟩
  let u : Compound := ⟨[.parent, .parent, .type "h1", .className "a\\.b", .attr "x" (some ⟨.equals, "p q"⟩),
    .pseudoElement "before" none]⟩
  have hc : c.ReadsBack .start := readsBack_iff.2
    ⟨by decide, by decide +kernel, 2, none, _, rfl, by simp, by decide, by simp⟩
  have hd : d.ReadsBack .start := readsBack_iff.2
    ⟨by decide, by decide +kernel, 0, some (.type "h1"), _, rfl, by simp, by decide, by simp⟩
  have hu : c.unify d = some u := by decide
  have hsuffix : ¬(c.SuffixedBy d ∨ d.SuffixedBy c) := by
    rintro (⟨-, name, hname, ch, hch, hsuffix⟩ | ⟨hparent, -⟩)
    · obtain rfl : name = "h1" := by simpa [d] using hname
      cases hch
      exact absurd hsuffix (by decide)
    · exact absurd hparent (by decide)
  exact ⟨c, d, u, by decide +kernel, by decide +kernel, hc, hd, hu, by decide +kernel,
    (unified_readsBack_iff hc hd hu .start).1.2 hsuffix⟩

/-- A type may begin with a letter beyond ASCII, but not behind `&`. -/
theorem exists_unified_refused : ∃ c d u : Compound, c.text = "&" ∧ d.text = "é" ∧ c.ReadsBack .start ∧
    d.ReadsBack .start ∧ c.unify d = some u ∧ u.text = "&é" ∧
    ∃ error, SelectorList.parse u.text .start = .error error ∧
      error = .invalidSelector "&é" .parentSuffix ⟨1, 2⟩ := by
  refine ⟨⟨[.parent]⟩, ⟨[.type "é"]⟩, ⟨[.parent, .type "é"]⟩, by decide, by decide, ⟨.descendant, ?_⟩,
    ⟨.descendant, ?_⟩, by decide, by decide, exists_error_of_test (by decide +kernel)⟩
  · obtain ⟨l, hl, rfl⟩ : ∃ l, SelectorList.parse (Compound.text ⟨[.parent]⟩) .start = .ok l ∧
        l = SelectorList.ofCompound ⟨[.parent]⟩ .start := exists_of_any_toOption (by decide +kernel)
    exact hl
  · obtain ⟨l, hl, rfl⟩ : ∃ l, SelectorList.parse (Compound.text ⟨[.type "é"]⟩) .start = .ok l ∧
        l = SelectorList.ofCompound ⟨[.type "é"]⟩ .start := exists_of_any_toOption (by decide +kernel)
    exact hl

end Compound

end ScssExtend
