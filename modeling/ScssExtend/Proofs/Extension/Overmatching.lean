import ScssExtend.Proofs.Extension.Splicing

/-!
# Which added selectors match too much

The extended reading of a document (`Table.extended`) is the least one in which every element that matches the
extender of an extension carries the components of its target. A selector that is added on a way of which at
most the last extension has an extender of several links matches, in a document of descendant combinators,
only elements that match the list in the extended reading (`Table.matches_of_mem_resolveSelectors`). Behind an
extender of several links this fails, because what is added for a compound of such an extender stands alone:
`Table.exists_overmatching` is a selector that matches too much.
-/

namespace ScssExtend

/-- All combinators of the chain are `descendant`. -/
def Complex.IsDescendantChain (x : Complex) : Prop :=
  ∀ l ∈ x.links, l.combinator = .descendant

namespace Table

variable {t : Table} {D : Document}

/-- Every element that matches an extender carries the target. -/
def ClosedReading (t : Table) (R : D.Reading) : Prop :=
  ∀ f ∈ t.entries, ∀ i, R.Matches f.extender i → ∀ s ∈ f.target.components, s ∈ R i

/-- The least closed reading in which the elements carry what they carry in the document. -/
def extended (t : Table) (D : Document) : D.Reading :=
  fun i => {s | ∀ R : D.Reading, (∀ j, D.plain j ⊆ R j) → t.ClosedReading R → s ∈ R i}

/-- In the extended reading elements still carry what they carry in the document. -/
lemma plain_subset_extended (i : D.Element) : D.plain i ⊆ t.extended D i :=
  fun _ hs _ hR _ => hR i hs

/-- The extended reading is closed itself. -/
lemma closedReading_extended : t.ClosedReading (t.extended D) := by
  intro f hf i hm s hs R hR hc
  refine hc f hf i (hm.mono fun j r hr => ?_) s hs
  exact hr R hR hc

/-! ## Along a way -/

/-- The context of a proper extender and its subject make up the extender. -/
lemma dropLast_concat_subject {f : Extension} (hf : f.IsProper) :
    f.extender.links = f.extender.links.dropLast ++ [f.subject] := by
  have h := List.dropLast_concat_getLast hf.2
  rw [Extension.subject, Complex.innermost?, List.getLast?_eq_some_getLast hf.2]
  exact h.symm

/-- What matches the outcome of an extension matches, in a closed reading, the compound that it is applied to.
-/
lemma matchedBy_of_outcome? {R : D.Reading} (hR : t.ClosedReading R) {f : Extension} (hf : f ∈ t.entries)
    {c : Compound} {x : Complex} (hx : f.outcome? c = some x) {i : D.Element} (hm : R.Matches x i) :
    c.MatchedBy (R i) := by
  obtain ⟨u, hu, -, rfl⟩ := Extension.outcome?_eq_some.1 hx
  obtain ⟨hui, hreplace⟩ := hm.replace
  obtain ⟨hsubject, hremainder⟩ := Compound.matchedBy_of_unify hu hui
  have hextender : R.Matches f.extender i := by
    have := hreplace _ hsubject
    rwa [← dropLast_concat_subject (t.proper f hf)] at this
  intro s hs
  by_cases hst : s ∈ f.target.components
  · exact .inr (hR f hf i hextender s hst)
  · exact hremainder s (Compound.mem_minus.2 ⟨hs, hst⟩)

/-- What a way ends with matches only what matches the compound that the way starts from, when no extension
but the last has an extender of several links. -/
lemma Way.matchedBy {R : D.Reading} (hR : t.ClosedReading R) {seen : SeenSet} {c : Compound}
    {es : List Extension} {y : Complex} (w : t.Way seen c es y)
    (hone : ∀ e ∈ es.dropLast, e.extender.links.length = 1) {i : D.Element} (hm : R.Matches y i) :
    c.MatchedBy (R i) := by
  induction w with
  | last he hx => exact matchedBy_of_outcome? hR (mem_candidates.1 he).1 hx hm
  | @step _ _ e x d es y he hx hd w ih =>
    have hne : es ≠ [] := by cases w <;> simp
    rw [List.dropLast_cons_of_ne_nil hne] at hone
    have hd' := ih (fun f hf => hone f (List.mem_cons_of_mem _ hf)) hm
    refine matchedBy_of_outcome? hR (mem_candidates.1 he).1 hx ?_
    -- the outcome is one link, so to match its compound is to match all of it
    obtain ⟨u, -, -, rfl⟩ := Extension.outcome?_eq_some.1 hx
    have hnil : e.extender.links.dropLast = [] := by
      rw [← List.length_eq_zero_iff, List.length_dropLast, hone e List.mem_cons_self]
    rw [hnil] at hd ⊢
    have hdu : d = u := by simpa [Complex.compounds] using (List.mem_filter.1 hd).1
    subst hdu
    exact Document.Reading.matches_singleton.2 hd'

/-- Descendant extenders have descendant chains at the ends of all ways. -/
lemma Way.isDescendantChain (ht : ∀ f ∈ t.entries, f.extender.IsDescendantChain) {seen : SeenSet}
    {c : Compound} {es : List Extension} {y : Complex} (w : t.Way seen c es y) : y.IsDescendantChain := by
  induction w with
  | last he hx =>
    have he := (mem_candidates.1 he).1
    obtain ⟨u, -, -, rfl⟩ := Extension.outcome?_eq_some.1 hx
    have hlinks := dropLast_concat_subject (t.proper _ he)
    intro l hl
    rcases List.mem_append.1 hl with hl | hl
    · exact ht _ he l (List.dropLast_subset _ hl)
    · cases List.mem_singleton.1 hl
      refine ht _ he (Extension.subject _) ?_
      rw [hlinks]
      exact List.mem_append_right _ (List.mem_singleton_self _)
  | step _ _ _ _ ih => exact ih

end Table

/-! ## In the context of a selector -/

/-- A descendant chain is led by the descendant combinator already. -/
lemma Complex.IsDescendantChain.leadBy {x : Complex} (hx : x.IsDescendantChain) :
    x.leadBy .descendant = x := by
  obtain ⟨links⟩ := x
  cases links with
  | nil => rfl
  | cons l ls =>
    obtain ⟨k, c⟩ := l
    have hk : k = .descendant := hx ⟨k, c⟩ List.mem_cons_self
    subst hk
    rfl

/-- The subject of a descendant chain is a descendant of its context. -/
lemma Complex.IsDescendantChain.joiner {x : Complex} (hx : x.IsDescendantChain) : x.joiner = .descendant := by
  obtain ⟨links⟩ := x
  obtain rfl | ⟨ls, l, rfl⟩ := List.eq_nil_or_concat' links
  · rfl
  · exact joiner_concat.trans (hx l (List.mem_append_right _ (List.mem_singleton_self l)))

/-- A descendant chain absorbs every other one. -/
lemma Complex.IsDescendantChain.absorbs {x y : Complex} (hx : x.IsDescendantChain) : x.Absorbs y := by
  refine .inr fun k _ => ?_
  rw [hx.joiner]
  rfl

/-- A splice of descendant chains is a descendant chain. -/
lemma Complex.IsDescendantChain.splice {before : List Link} {link : Link} {y z : Complex}
    (hbefore : ∀ l ∈ before, l.combinator = .descendant) (hlink : link.combinator = .descendant)
    (hy : y.IsDescendantChain) (hz : z ∈ Complex.splice ⟨before ++ [link]⟩ y) :
    z.links ≠ [] ∧ z.IsDescendantChain := by
  refine ⟨links_ne_nil_of_mem_splice hz, ?_⟩
  obtain ⟨ls, l, rfl⟩ := exists_concat_of_mem_splice hz
  obtain ⟨hls, hlast⟩ := List.forall_mem_append.1 hy
  have hl : l.combinator = .descendant := hlast l (List.mem_singleton_self l)
  have hchain : (⟨before⟩ : Complex).IsDescendantChain := hbefore
  rcases eq_of_mem_splice hz with ⟨-, rfl⟩ | ⟨-, rfl | ⟨-, rfl⟩⟩
  · exact hy
  · rw [joinedTo, hlink, hy.leadBy]
    exact List.forall_mem_append.2 ⟨hbefore, hy⟩
  · rw [joinedTo, hl, hchain.leadBy]
    refine List.forall_mem_append.2 ⟨List.forall_mem_append.2 ⟨hls, hbefore⟩, ?_⟩
    exact List.forall_mem_singleton.2 hlink

namespace Document.Reading

variable {D : Document} {R : D.Reading}

/-- What a splice matches along descendant combinators matches the extender, and has an ancestor that matches
the context of the extendee. -/
lemma matches_and_ancestor_of_splice {before : List Link} {link : Link} {y z : Complex}
    (hbefore : ∀ l ∈ before, l.combinator = .descendant) (hlink : link.combinator = .descendant)
    (hy : y.IsDescendantChain) (hz : z ∈ Complex.splice ⟨before ++ [link]⟩ y) {i : D.Element}
    (hm : R.Matches z i) :
    R.Matches y i ∧ (before = [] ∨ ∃ a, R.Matches ⟨before⟩ a ∧ Ancestor a i) := by
  have hx : Complex.IsDescendantChain ⟨before ++ [link]⟩ :=
    List.forall_mem_append.2 ⟨hbefore, List.forall_mem_singleton.2 hlink⟩
  obtain ⟨hextender, hplace⟩ := Complex.entails_of_mem_splice hz hx.absorbs hy.absorbs
  refine ⟨hextender D R i hm, ?_⟩
  by_cases hne : before = []
  · exact .inl hne
  · have hi := hplace D R i hm
    rw [Complex.withSubjectOf, hx.joiner, List.dropLast_concat] at hi
    obtain ⟨a, ha, hai, -⟩ := (matches_concat hne).1 hi
    exact .inr ⟨a, ha, hai⟩

end Document.Reading

namespace Table

variable {t : Table} {D : Document}

/-- Without a leading `&`, and along descendant combinators, an added selector stands in no frame. -/
lemma Adds.eq_splice_append {x r : Complex} {es : List Extension} (h : t.Adds x es r)
    (ht : ∀ f ∈ t.entries, f.extender.IsDescendantChain) (hx : x.IsDescendantChain)
    (hparent : ∀ c ∈ x.compounds, c.mentionsParent = false) :
    ∃ before link behind y z, x.links = before ++ link :: behind ∧ t.Way .empty link.compound es y ∧
      z ∈ Complex.splice ⟨before ++ [link]⟩ y ∧ r = ⟨z.links ++ behind⟩ := by
  obtain ⟨before, link, behind, y, z, hl, -, w, hz, rfl⟩ := h
  have haside : x.setAside = (none, x) := by
    cases hlinks : x.links with
    | nil => simp [Complex.setAside, Complex.splitParent?, hlinks]
    | cons first rest =>
      refine Complex.setAside_of_not_parent hlinks (.inr fun hlone => ?_)
      have hfirst := hparent first.compound (by simp [Complex.compounds, hlinks])
      rw [Compound.mentionsParent, hlone] at hfirst
      cases hfirst
  rw [haside] at hl
  refine ⟨before, link, behind, y, z, hl, w, hz, ?_⟩
  have hlead : (x.links.head?.map Link.combinator).getD .descendant = .descendant := by
    cases hh : x.links.head? with
    | none => rfl
    | some first => exact hx first (List.mem_of_head? hh)
  rw [Complex.framed, haside]
  simp only [hlead]
  have hlinks : ∀ l ∈ before ++ link :: behind, l.combinator = .descendant := fun l h => hx l (hl ▸ h)
  have hz' := (Complex.IsDescendantChain.splice (fun l h => hlinks l (List.mem_append_left _ h))
    (hlinks link (by simp)) (w.isDescendantChain ht) hz).2
  refine Complex.IsDescendantChain.leadBy fun l h => ?_
  rcases List.mem_append.1 h with h | h
  · exact hz' l h
  · exact hlinks l (by simp [h])

/-- In a document of descendant combinators, a resolved selector that is in the list or is added on a way of
which at most the last extension has an extender of several links matches only elements that match the list in
the extended reading. Every resolved selector is in the list or added on some way. -/
theorem matches_of_mem_resolveSelectors (t : Table) (ht : ∀ f ∈ t.entries, f.extender.IsDescendantChain)
    {selectors : List Complex} (hl : ∀ x ∈ selectors, x.IsDescendantChain)
    (hparent : ∀ x ∈ selectors, ∀ c ∈ x.compounds, c.mentionsParent = false) {r : Complex}
    (hr : r ∈ t.resolveSelectors selectors) :
    (r ∈ selectors ∨ ∃ x ∈ selectors, ∃ es, t.Adds x es r) ∧
      ((r ∈ selectors ∨ ∃ x ∈ selectors, ∃ es, t.Adds x es r ∧
          ∀ e ∈ es.dropLast, e.extender.links.length = 1) →
        ∀ (D : Document) (i : D.Element), D.plain.Matches r i →
          ∃ x ∈ selectors, (t.extended D).Matches x i) := by
  refine ⟨mem_or_adds_of_mem_resolveSelectors hr, ?_⟩
  rintro (hmem | ⟨x, hx, es, hadds, hone⟩) D i hm
  · exact ⟨r, hmem, hm.mono plain_subset_extended⟩
  obtain ⟨before, link, behind, y, z, hlinks, w, hz, rfl⟩ :=
    hadds.eq_splice_append ht (hl x hx) (hparent x hx)
  have hchain : ∀ l ∈ before ++ link :: behind, l.combinator = .descendant :=
    fun l h => hl x hx l (hlinks ▸ h)
  have hbefore : ∀ l ∈ before, l.combinator = .descendant := fun l h => hchain l (by simp [h])
  have hlink : link.combinator = .descendant := hchain link (by simp)
  have hy := w.isDescendantChain ht
  obtain ⟨b, hb, hbi⟩ :=
    (Document.Reading.matches_append (Complex.IsDescendantChain.splice hbefore hlink hy hz).1).1 hm
  obtain ⟨hyb, hcontext⟩ := Document.Reading.matches_and_ancestor_of_splice hbefore hlink hy hz hb
  have hcompound : link.compound.MatchedBy (t.extended D b) :=
    w.matchedBy closedReading_extended hone (hyb.mono plain_subset_extended)
  -- the element that stands in the place of the compound matches the selector up to there
  have hupto : (t.extended D).Matches ⟨before ++ [link]⟩ b := by
    rcases hcontext with rfl | ⟨a, ha, hab⟩
    · exact Document.Reading.matches_singleton.2 hcompound
    · have hne : before ≠ [] := by
        rintro rfl
        exact ha
      refine (Document.Reading.matches_concat hne).2 ⟨a, ha.mono plain_subset_extended, ?_, hcompound⟩
      rw [hlink]
      exact hab
  refine ⟨x, hx, ?_⟩
  have hx' : x = ⟨before ++ [link] ++ behind⟩ := by
    rw [List.append_assoc, List.singleton_append, ← hlinks]
  rw [hx']
  exact (Document.Reading.matches_append (by simp)).2 ⟨b, hupto, hbi.mono plain_subset_extended⟩

/-- `.p .q` extends `.t`, `.s` extends `.q`, and `.p .u` extends `.s`. -/
def contextTable : Table :=
  ((empty.push ⟨.ofClasses [["p"], ["q"]], ⟨[.className "t"]⟩, .start⟩ (by decide)).push
    ⟨.ofClasses [["s"]], ⟨[.className "q"]⟩, .start⟩ (by decide)).push
    ⟨.ofClasses [["p"], ["u"]], ⟨[.className "s"]⟩, .start⟩ (by decide)

/-- For `.a .q.v`, by way of `.s.v`, the selector `.p .a .u.v` is added, and it does not match too much. -/
theorem matches_of_mem_resolveSelectors_context :
    (∀ f ∈ contextTable.entries, f.extender.IsDescendantChain) ∧
    (∀ x ∈ [Complex.ofClasses [["a"], ["q", "v"]]],
      x.IsDescendantChain ∧ ∀ c ∈ x.compounds, c.mentionsParent = false) ∧
    Complex.ofClasses [["p"], ["a"], ["u", "v"]] ∈
      contextTable.resolveSelectors [.ofClasses [["a"], ["q", "v"]]] ∧
    ∀ (D : Document) (i : D.Element), D.plain.Matches (.ofClasses [["p"], ["a"], ["u", "v"]]) i →
      ∃ x ∈ [Complex.ofClasses [["a"], ["q", "v"]]], (contextTable.extended D).Matches x i := by
  have ht : ∀ f ∈ contextTable.entries, f.extender.IsDescendantChain := by
    unfold Complex.IsDescendantChain
    decide
  have hl : ∀ x ∈ [Complex.ofClasses [["a"], ["q", "v"]]], x.IsDescendantChain := by
    unfold Complex.IsDescendantChain
    decide
  have hparent : ∀ x ∈ [Complex.ofClasses [["a"], ["q", "v"]]], ∀ c ∈ x.compounds,
      c.mentionsParent = false := by decide
  have hr : Complex.ofClasses [["p"], ["a"], ["u", "v"]] ∈
      contextTable.resolveSelectors [.ofClasses [["a"], ["q", "v"]]] := by decide +kernel
  refine ⟨ht, fun x hx => ⟨hl x hx, hparent x hx⟩, hr, ?_⟩
  refine (matches_of_mem_resolveSelectors contextTable ht hl hparent hr).2 (.inr ?_)
  -- `.s` is applied to `.q.v`, and `.p .u` to the outcome
  have w : contextTable.Way .empty ⟨[.className "q", .className "v"]⟩
      [⟨.ofClasses [["s"]], ⟨[.className "q"]⟩, .start⟩,
        ⟨.ofClasses [["p"], ["u"]], ⟨[.className "s"]⟩, .start⟩]
      (.ofClasses [["p"], ["u", "v"]]) :=
    .step (x := .ofClasses [["s", "v"]]) (d := ⟨[.className "s", .className "v"]⟩) (by decide +kernel)
      (by decide +kernel) (by decide) (.last (by decide +kernel) (by decide +kernel))
  refine ⟨_, List.mem_singleton_self _, _, ⟨[⟨.descendant, ⟨[.className "a"]⟩⟩],
    ⟨.descendant, ⟨[.className "q", .className "v"]⟩⟩, [], _, .ofClasses [["p"], ["a"], ["u", "v"]],
    rfl, by decide, w, by decide +kernel, by decide⟩, by decide⟩

/-- A document of a single element, which carries `.s`. -/
def loneElement : Document where
  size := 1
  parent? _ := none
  parent_lt := by simp
  carried _ := [.className "s"]

/-- What is added for a compound of an extender of several links stands without its context: for `.t`, by way
of `.p .q`, the selector `.s` is added, and an element that carries only `.s` does not match `.t` in the
extended reading. -/
theorem exists_overmatching :
    (∀ f ∈ contextTable.entries, f.extender.IsDescendantChain ∧
      ∀ c ∈ f.extender.compounds, c.isEmpty = false ∧ c.mentionsParent = false) ∧
    Complex.ofClasses [["s"]] ∈ contextTable.resolveSelectors [.ofClasses [["t"]]] ∧
    ∃ i : loneElement.Element, loneElement.plain.Matches (.ofClasses [["s"]]) i ∧
      ¬∃ x ∈ [Complex.ofClasses [["t"]]], (contextTable.extended loneElement).Matches x i := by
  have ht : ∀ f ∈ contextTable.entries, f.extender.IsDescendantChain ∧
      ∀ c ∈ f.extender.compounds, c.isEmpty = false ∧ c.mentionsParent = false := by
    unfold Complex.IsDescendantChain
    decide
  refine ⟨ht, by decide +kernel, ⟨0, Nat.one_pos⟩, ?_, ?_⟩
  · exact Document.Reading.matches_singleton.2 fun s hs => .inr hs
  · rintro ⟨x, hx, hm⟩
    cases List.mem_singleton.1 hx
    -- a closed reading without `.t`
    have hclosed : contextTable.ClosedReading (D := loneElement)
        fun _ => {s | s = .className "s" ∨ s = .className "q"} := by
      have noContext {i : loneElement.Element} {names : List String}
          (h : Document.Reading.Matches (fun _ => {s | s = .className "s" ∨ s = .className "q"})
            (.ofClasses [["p"], names]) i) : False := by
        obtain ⟨_, hp, -⟩ := h
        simpa using hp _ (List.mem_singleton_self _)
      intro f hf i hmatch s hs
      simp only [contextTable, push, empty, List.nil_append, List.cons_append, List.mem_cons,
        List.not_mem_nil, or_false] at hf
      rcases hf with rfl | rfl | rfl
      · exact (noContext hmatch).elim
      · exact .inr (List.mem_singleton.1 hs)
      · exact (noContext hmatch).elim
    rcases Document.Reading.matches_singleton.1 hm _ (List.mem_singleton_self _) with h | h
    · cases h
    · simpa using h _ (fun _ s hs => .inl (List.mem_singleton.1 hs)) hclosed

end Table

end ScssExtend
