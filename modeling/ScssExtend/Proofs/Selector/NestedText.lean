import ScssExtend.Proofs.Selector.ParentReference
import ScssExtend.Proofs.Selector.UnifiedText

/-!
# Reading the text of nested selectors

In the place of a compound with `&` stands the last compound of the parent, to which the other components go
(`Compound.joined`). Selectors that are read back are well formed, and nesting keeps them so with one exception:
where `&` has a type or `*` beside it, and the parent's last compound has one too, both stand in one compound
(`Complex.Crowds`). Then the text is refused, or two types are read as a single one
(`Complex.resolved_readsBack_iff`).
-/

namespace ScssExtend

/-! ## Joined compounds -/

namespace Compound

variable {c d : Compound}

/-- The components of both, those of `d` without `&`, arranged. -/
def joined (c d : Compound) : Compound :=
  ⟨arrange (c.components ++ d.components.filter (· != .parent))⟩

/-- A compound mentions `&` when it is one of its components. -/
lemma mentionsParent_iff : c.mentionsParent ↔ .parent ∈ c.components :=
  List.contains_iff_mem

/-- A joined compound has the components of both, those of the second without `&`. -/
lemma mem_joined {s : Simple} :
    s ∈ (c.joined d).components ↔ s ∈ c.components ∨ s ∈ d.components ∧ s ≠ .parent := by
  simp [joined, mem_arrange]

/-- The types of a joined compound are those of both. -/
lemma leads_joined (c d : Compound) : (c.joined d).leads = c.leads ++ d.leads := by
  have hplace (ss : List Simple) : leads ⟨ss⟩ = ss.filter fun s => s.placement == 1 := rfl
  have hfurther : (d.components.filter (· != .parent)).filter (fun s => s.placement == 1) = d.leads := by
    rw [List.filter_filter]
    refine List.filter_congr fun s _ => ?_
    cases s <;> rfl
  rw [joined, hplace, filter_placement_arrange, List.filter_append, hfurther]
  rfl

/-- A well-formed compound has at most one type or `*`. -/
lemma IsWellFormed.exists_leads_eq (h : c.IsWellFormed) (hne : c.leads ≠ []) : ∃ s, c.leads = [s] := by
  obtain ⟨lead, hlead⟩ := h.isArranged.exists_leads_eq
  cases lead with
  | none => exact absurd hlead hne
  | some s => exact ⟨s, hlead⟩

section WellFormed

variable (hc : c.IsWellFormed) (hd : d.IsWellFormed) (hparent : .parent ∈ d.components)
include hc hd hparent

/-- A type that stands behind `&` does so on one of the sides. -/
lemma not_suffixedBy_joined : ¬(c.joined d).SuffixedBy (c.joined d) := by
  rintro ⟨hmem, name, hname, hsuffix⟩
  obtain hmem | ⟨-, hne⟩ := mem_joined.1 hmem
  · obtain hname | ⟨hname, -⟩ := mem_joined.1 hname
    · exact hc.not_suffixedBy ⟨hmem, name, hname, hsuffix⟩
    · exact hd.not_suffixedBy ⟨hparent, name, hname, hsuffix⟩
  · exact hne rfl

/-- A joined compound is well-formed exactly if one of the two brings no type. -/
lemma isWellFormed_joined_iff : (c.joined d).IsWellFormed ↔ c.leads = [] ∨ d.leads = [] := by
  constructor
  · intro h
    by_contra hboth
    obtain ⟨hcne, hdne⟩ := not_or.1 hboth
    obtain ⟨s, hs⟩ := hc.exists_leads_eq hcne
    obtain ⟨t, ht⟩ := hd.exists_leads_eq hdne
    obtain ⟨lead, hlead⟩ := h.isArranged.exists_leads_eq
    rw [leads_joined, hs, ht] at hlead
    cases lead <;> cases hlead
  · intro h
    obtain ⟨lead, hlead⟩ : ∃ lead : Option Simple, (c.joined d).leads = lead.toList := by
      rw [leads_joined]
      obtain hnil | hnil := h
      · rw [hnil, List.nil_append]
        exact hd.isArranged.exists_leads_eq
      · rw [hnil, List.append_nil]
        exact hc.isArranged.exists_leads_eq
    obtain ⟨s, hs⟩ := List.exists_mem_of_ne_nil _ hc.nonempty
    refine ⟨List.ne_nil_of_mem (mem_joined.2 (.inl hs)), fun t ht => ?_, ?_⟩
    · obtain ht | ⟨ht, -⟩ := mem_joined.1 ht
      · exact hc.components t ht
      · exact hd.components t ht
    · exact isArranged_of_not_suffixedBy (isLed_arrange _) hlead (not_suffixedBy_joined hc hd hparent)

end WellFormed

/-! ## Two types in one compound -/

/-- The types that a compound is read as are those that its own are read as. -/
lemma type_mem_reread {name : String} :
    .type name ∈ c.reread.components ↔ .type name ∈ mergeLeads c.leads := by
  have hothers : .type name ∉ (c.components.filter fun s => !s.isTypeLike).map Simple.reread := by
    intro hmem
    obtain ⟨s, hs, heq⟩ := List.mem_map.1 hmem
    have hlike : s.isTypeLike = false := by simpa using (List.mem_filter.1 hs).2
    rw [← Simple.isTypeLike_reread, heq] at hlike
    cases hlike
  simp only [reread, List.mem_append, hothers, or_false]
  simp

/-- Two types are read as one, which is neither of them. -/
lemma not_eqv_reread {s t : Simple} (hleads : c.leads = [s, t]) (hc : c.IsComposed) (hr : c.IsReadable) :
    ¬c.reread.eqv c := by
  have hcases {u : Simple} (hu : u ∈ c.leads) : ∃ name, u = .type name := by
    refine (universal_or_type_of_mem_leads hu).resolve_left ?_
    rintro rfl
    have hone := hr.2.1 (universal_mem_leads.1 hu)
    rw [hleads] at hone
    cases hone
  obtain ⟨m, rfl⟩ := hcases (u := s) (by simp [hleads])
  obtain ⟨n, rfl⟩ := hcases (u := t) (by simp [hleads])
  intro heqv
  have hm : .type m ∈ c.components := type_mem_leads.1 (by simp [hleads])
  have hn : .type n ∈ c.components := type_mem_leads.1 (by simp [hleads])
  have hread := type_mem_reread.1 ((eqv_iff.1 heqv _).2 hm)
  rw [hleads] at hread
  have hjoin : m = m ++ n := by simpa [mergeLeads, Simple.text] using hread
  have hname : n.toList ≠ [] := (hc.isSpelled _ hn).1.1
  refine hname ?_
  have hlist := congrArg String.toList hjoin
  rw [String.toList_append] at hlist
  exact List.self_eq_append_right.1 hlist

end Compound

/-! ## Nested selectors -/

namespace Complex

variable {x parent : Complex} {ls : List Link} {last l : Link} {position : Position}

/-- A type or `*` stands beside `&` and in the parent's last compound. -/
def Crowds (x parent : Complex) : Prop :=
  ∃ c ∈ x.compounds, .parent ∈ c.components ∧ c.leads ≠ [] ∧ ∃ d ∈ parent.compounds.getLast?, d.leads ≠ []

instance (x parent : Complex) : Decidable (x.Crowds parent) :=
  inferInstanceAs (Decidable (∃ c ∈ x.compounds, .parent ∈ c.components ∧ c.leads ≠ [] ∧
    ∃ d ∈ parent.compounds.getLast?, d.leads ≠ []))

/-- A leading combinator changes no compound. -/
lemma compounds_leadBy (combinator : Combinator) (x : Complex) :
    (x.leadBy combinator).compounds = x.compounds := by
  obtain ⟨_ | ⟨first, rest⟩⟩ := x <;> rfl

/-- In the place of a link with `&` stand the parent's compounds, the last one joined with that of the link. -/
lemma compounds_substituteParent (l : Link) : compounds ⟨substituteParent ⟨ls ++ [last]⟩ l⟩ =
    compounds ⟨ls⟩ ++ [last.compound.joined l.compound] := by
  have hcompounds := compounds_leadBy l.combinator ⟨ls ++ [last]⟩
  have hne : (leadBy l.combinator ⟨ls ++ [last]⟩).links ≠ [] := leadBy_ne_nil (List.concat_ne_nil _ _) _
  obtain hnil | ⟨ks, k, hlinks⟩ := List.eq_nil_or_concat' (leadBy l.combinator ⟨ls ++ [last]⟩).links
  · exact absurd hnil hne
  · rw [compounds, hlinks, compounds, List.map_append, List.map_append] at hcompounds
    obtain ⟨hfront, hlast⟩ := List.append_inj' hcompounds rfl
    have hlast : k.compound = last.compound := by simpa using hlast
    rw [substituteParent_eq hlinks, hlast, compounds, List.map_append, hfront]
    rfl

/-- Every compound that mentions `&` is replaced by those of the parent, the last one joined with it. -/
lemma compounds_resolveParent (h : x.mentionsParent) : (x.resolveParent ⟨ls ++ [last]⟩).compounds =
    x.compounds.flatMap fun c =>
      if c.mentionsParent then compounds ⟨ls⟩ ++ [last.compound.joined c] else [c] := by
  have hlink (l : Link) : compounds ⟨if l.compound.mentionsParent then substituteParent ⟨ls ++ [last]⟩ l else [l]⟩ =
      if l.compound.mentionsParent then compounds ⟨ls⟩ ++ [last.compound.joined l.compound]
      else [l.compound] := by
    split
    · exact compounds_substituteParent l
    · rfl
  have hcompounds : x.compounds = x.links.map Link.compound := rfl
  rw [resolveParent_of_mentionsParent h, compounds, List.map_flatMap, hcompounds, List.flatMap_map]
  exact List.flatMap_congr fun l _ => hlink l

/-- The last compound of a selector is that of its last link. -/
lemma exists_concat_of_getLast? {d : Compound} (hd : d ∈ parent.compounds.getLast?) :
    ∃ ls last, parent = ⟨ls ++ [last]⟩ ∧ last.compound = d := by
  obtain ⟨links⟩ := parent
  obtain rfl | ⟨ls, last, rfl⟩ := List.eq_nil_or_concat' links
  · cases hd
  · exact ⟨ls, last, rfl, by simpa [compounds] using hd⟩

/-- The parent's last compound is joined with every compound that mentions `&`. -/
lemma joined_mem_resolveParent {c d : Compound} (hc : c ∈ x.compounds) (hmem : .parent ∈ c.components)
    (hd : d ∈ parent.compounds.getLast?) : d.joined c ∈ (x.resolveParent parent).compounds := by
  obtain ⟨ls, last, rfl, rfl⟩ := exists_concat_of_getLast? hd
  have hmentions : c.mentionsParent := Compound.mentionsParent_iff.2 hmem
  rw [compounds_resolveParent (List.any_eq_true.2 ⟨c, hc, hmentions⟩)]
  exact List.mem_flatMap.2 ⟨c, hc, by simp [hmentions]⟩

/-- Every other compound is one of the parent or of the selector. -/
lemma mem_compounds_resolveParent {e : Compound} (hparent : parent.links ≠ [])
    (he : e ∈ (x.resolveParent parent).compounds) :
    e ∈ parent.compounds ∨ e ∈ x.compounds ∨
      ∃ c ∈ x.compounds, .parent ∈ c.components ∧ ∃ d ∈ parent.compounds.getLast?, e = d.joined c := by
  obtain ⟨links⟩ := parent
  obtain rfl | ⟨ls, last, rfl⟩ := List.eq_nil_or_concat' links
  · exact absurd rfl hparent
  have happend : compounds ⟨ls ++ [last]⟩ = compounds ⟨ls⟩ ++ [last.compound] := List.map_append
  cases h : x.mentionsParent with
  | false =>
    rw [resolveParent_of_not_mentionsParent h, compounds, List.map_append] at he
    exact (List.mem_append.1 he).imp_right .inl
  | true =>
    rw [compounds_resolveParent h] at he
    obtain ⟨c, hc, he⟩ := List.mem_flatMap.1 he
    split at he
    · next hmentions =>
      obtain he | he := List.mem_append.1 he
      · rw [happend]
        exact .inl (List.mem_append_left _ he)
      · refine .inr (.inr ⟨c, hc, Compound.mentionsParent_iff.1 hmentions, last.compound, ?_, List.mem_singleton.1 he⟩)
        rw [happend]
        exact List.getLast?_concat
    · obtain rfl := List.mem_singleton.1 he
      exact .inr (.inl hc)

/-! ## Selectors that are read back -/

/-- The text of the selector, read at this place, is just this selector. -/
def ReadsBack (x : Complex) (position : Position) : Prop :=
  SelectorList.parse x.text position = .ok ⟨[x], position⟩

instance (x : Complex) (position : Position) : Decidable (x.ReadsBack position) :=
  inferInstanceAs (Decidable (SelectorList.parse x.text position = .ok ⟨[x], position⟩))

/-- The text of a list with one selector is that of the selector. -/
lemma text_singleton (x : Complex) (position : Position) : (SelectorList.mk [x] position).text = x.text := by
  rw [← String.toList_inj, SelectorList.toList_selectors]
  exact List.append_nil _

/-- A selector is read back from its text exactly if it is well-formed. -/
lemma readsBack_iff : x.ReadsBack position ↔ x.IsWellFormed := by
  constructor
  · intro h
    have hc := SelectorList.isComposed_of_parse h
    have ha := SelectorList.isArranged_of_parse h
    rw [ReadsBack, ← text_singleton x position] at h
    obtain ⟨-, hself⟩ := (SelectorList.parse_text_eq_ok_iff hc ha).1 h
    have hx : x.reread = x := by simpa [SelectorList.reread] using hself
    rw [← hx]
    exact isWellFormed_reread (hc.selectors x (List.mem_singleton_self x))
      (ha x (List.mem_singleton_self x))
  · intro h
    rw [ReadsBack, ← text_singleton x position]
    exact SelectorList.parse_text_eq_self ⟨List.cons_ne_nil _ _, List.forall_mem_singleton.2 h⟩ position

/-- When a selector is read again as an equivalent one, so is each of its compounds. -/
lemma eqv_of_eqv_reread (h : x.reread.eqv x) : ∀ c ∈ x.compounds, c.reread.eqv c := by
  have hlinks : x.links.map (Link.canonical ∘ Link.reread) = x.links.map Link.canonical := by
    rw [← List.map_map]
    exact congrArg links (eqv_iff.1 h)
  refine List.forall_mem_map.2 fun l hl => beq_iff_eq.2 ?_
  exact congrArg Link.compound (List.map_inj_left.1 hlinks l hl)

section WellFormed

variable (hx : x.IsWellFormed) (hparent : parent.IsWellFormed)
include hx hparent

/-- A resolved selector is well-formed exactly if no type is crowded. -/
lemma isWellFormed_resolveParent_iff : (x.resolveParent parent).IsWellFormed ↔ ¬x.Crowds parent := by
  have hxs : ∀ c ∈ x.compounds, c.IsWellFormed := List.forall_mem_map.2 hx.compounds
  have hparents : ∀ c ∈ parent.compounds, c.IsWellFormed := List.forall_mem_map.2 hparent.compounds
  have hjoined {c d : Compound} (hc : c ∈ x.compounds) (hmem : .parent ∈ c.components)
      (hd : d ∈ parent.compounds.getLast?) : (d.joined c).IsWellFormed ↔ d.leads = [] ∨ c.leads = [] :=
    Compound.isWellFormed_joined_iff (hparents d (List.mem_of_getLast? hd)) (hxs c hc) hmem
  constructor
  · rintro h ⟨c, hc, hmem, hleads, d, hd, hlastLeads⟩
    have hall : ∀ e ∈ (x.resolveParent parent).compounds, e.IsWellFormed := List.forall_mem_map.2 h.compounds
    obtain hnil | hnil := (hjoined hc hmem hd).1 (hall _ (joined_mem_resolveParent hc hmem hd))
    · exact hlastLeads hnil
    · exact hleads hnil
  · intro h
    refine ⟨(hx.isComposed.resolveParent hparent.isComposed).nonempty, List.forall_mem_map.1 fun e he => ?_⟩
    obtain he | he | ⟨c, hc, hmem, d, hd, rfl⟩ := mem_compounds_resolveParent hparent.nonempty he
    · exact hparents e he
    · exact hxs e he
    · refine (hjoined hc hmem hd).2 ?_
      by_contra hboth
      obtain ⟨hlastLeads, hleads⟩ := not_or.1 hboth
      exact h ⟨c, hc, hmem, hleads, d, hd, hlastLeads⟩

/-- Whatever the text is read as, it is no selector with these components. -/
lemma not_eqv_of_crowds {y : Complex} (h : x.Crowds parent)
    (hparse : SelectorList.parse (x.resolveParent parent).text position = .ok ⟨[y], position⟩) :
    ¬y.eqv (x.resolveParent parent) := by
  have hcomposed := hx.isComposed.resolveParent hparent.isComposed
  have hlist : ∀ z ∈ (SelectorList.mk [x.resolveParent parent] position).selectors, z.IsComposed :=
    List.forall_mem_singleton.2 hcomposed
  rw [← text_singleton _ position] at hparse
  by_cases hr : (x.resolveParent parent).IsReadable
  · rw [SelectorList.parse_text (List.cons_ne_nil _ _) hlist (List.forall_mem_singleton.2 hr)] at hparse
    cases hparse
    obtain ⟨c, hc, hmem, hleads, d, hd, hlastLeads⟩ := h
    have hlast : d.IsWellFormed := List.forall_mem_map.2 hparent.compounds d (List.mem_of_getLast? hd)
    have hown : c.IsWellFormed := List.forall_mem_map.2 hx.compounds c hc
    obtain ⟨s, hs⟩ := hlast.exists_leads_eq hlastLeads
    obtain ⟨t, ht⟩ := hown.exists_leads_eq hleads
    have htwo : (d.joined c).leads = [s, t] := by
      rw [Compound.leads_joined, hs, ht]
      rfl
    have hjoined := joined_mem_resolveParent hc hmem hd
    intro heqv
    exact Compound.not_eqv_reread htwo (List.forall_mem_map.2 hcomposed.compounds _ hjoined)
      (List.forall_mem_map.2 hr _ hjoined) (eqv_of_eqv_reread heqv _ hjoined)
  · obtain ⟨error, herror⟩ := SelectorList.parse_text_error hlist ⟨_, List.mem_singleton_self _, hr⟩ position
    rw [herror] at hparse
    cases hparse

end WellFormed

/-- A selector that is read back and nested inside one that is read back is read back as well, at any place, unless
types or `*` crowd one compound. Then the text is read as no equivalent selector. -/
theorem resolved_readsBack_iff {p q : Position} (hx : x.ReadsBack p) (hparent : parent.ReadsBack q)
    (position : Position) :
    ((x.resolveParent parent).ReadsBack position ↔ ¬x.Crowds parent) ∧
    (x.Crowds parent → ∀ y,
      SelectorList.parse (x.resolveParent parent).text position = .ok ⟨[y], position⟩ →
      ¬y.eqv (x.resolveParent parent)) := by
  have hx := readsBack_iff.1 hx
  have hparent := readsBack_iff.1 hparent
  refine ⟨?_, fun h y hparse => not_eqv_of_crowds hx hparent h hparse⟩
  rw [readsBack_iff]
  exact isWellFormed_resolveParent_iff hx hparent

/-- A parent with combinators and a pseudo-element, in the place of two links. -/
theorem resolved_readsBack_iff_combinators : ∃ x parent : Complex, x.text = "> .p &q.r ~ &" ∧
    parent.text = "+ li .a::before" ∧ x.ReadsBack .start ∧ parent.ReadsBack .start ∧
    (x.resolveParent parent).text = "> .p li q.a.r::before ~ li .a::before" ∧
    (x.resolveParent parent).ReadsBack .start := by
  let x : Complex := ⟨[⟨.child, ⟨[.className "p"]⟩⟩, ⟨.descendant, ⟨[.parent, .type "q", .className "r"]⟩⟩,
    ⟨.subsequentSibling, ⟨[.parent]⟩⟩]⟩
  let parent : Complex := ⟨[⟨.nextSibling, ⟨[.type "li"]⟩⟩,
    ⟨.descendant, ⟨[.className "a", .pseudoElement "before" none]⟩⟩]⟩
  have hx : x.ReadsBack .start := by decide +kernel
  have hparent : parent.ReadsBack .start := by decide +kernel
  have hcrowds : ¬x.Crowds parent := by decide
  exact ⟨x, parent, by decide, by decide, hx, hparent, by decide +kernel,
    (resolved_readsBack_iff hx hparent .start).1.2 hcrowds⟩

/-- Two types are read as a single one, and a type behind `*` is refused. -/
theorem exists_resolved_not_readsBack :
    (∃ x parent y : Complex, x.text = "&q" ∧ parent.text = "p" ∧ x.ReadsBack .start ∧ parent.ReadsBack .start ∧
      SelectorList.parse (x.resolveParent parent).text .start = .ok ⟨[y], .start⟩ ∧
      y = ofCompound ⟨[.type "pq"]⟩ ∧ ¬y.eqv (x.resolveParent parent)) ∧
    ∃ x parent : Complex, x.text = "&p" ∧ parent.text = "*" ∧ x.ReadsBack .start ∧ parent.ReadsBack .start ∧
      SelectorList.parse (x.resolveParent parent).text .start =
        .error (.invalidSelector "*p" (.mustComeFirst (.type "p")) ⟨1, 3⟩) := by
  constructor
  · exact ⟨ofCompound ⟨[.parent, .type "q"]⟩, ofCompound ⟨[.type "p"]⟩, ofCompound ⟨[.type "pq"]⟩, by decide,
      by decide, by decide +kernel, by decide +kernel, by decide +kernel, rfl, by decide +kernel⟩
  · exact ⟨ofCompound ⟨[.parent, .type "p"]⟩, ofCompound ⟨[.universal]⟩, by decide, by decide,
      by decide +kernel, by decide +kernel, by decide +kernel⟩

end Complex

end ScssExtend
