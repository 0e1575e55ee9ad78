import ScssExtend.Proofs.Selector.CompoundReading

/-!
# Selector lists are read from their text

The links of a chain and the selectors of a list are read one after the other, each from where the one before
it ended (`readLinks_text`, `readSelectors_text`). The text of a list of composed selectors is accepted
exactly when all its compounds are readable, and is read as `reread` says (`SelectorList.parse_text`,
`SelectorList.parse_text_error`). A well-formed list is read as itself (`SelectorList.parse_text_eq_self`).
-/

namespace ScssExtend

namespace Grammar

open Text

/-- The text begins with something other than a blank, a comma or a combinator. -/
def BeginsCompound (cs : List Char) : Prop :=
  ∃ c ds, cs = c :: ds ∧ isBlank c = false ∧ c ≠ ',' ∧ readCombinator cs = none

/-- The end of the text or a comma. -/
def EndsChain (rest : List Char) : Prop :=
  rest = [] ∨ ∃ more, rest = ',' :: more

/-- The texts of links that follow another one. -/
def chainText (ls : List Link) : List Char :=
  ls.flatMap fun l => l.text.toList

/-- The texts of selectors that follow another one, each behind a comma. -/
def furtherText (xs : List Complex) : List Char :=
  xs.flatMap fun x => ',' :: ' ' :: x.text.toList

/-- A further chain is written behind a comma and a space. -/
lemma furtherText_cons (x : Complex) (xs : List Complex) :
    furtherText (x :: xs) = ',' :: ' ' :: (x.text.toList ++ furtherText xs) :=
  rfl

/-- No further links have no text. -/
@[simp] lemma chainText_nil : chainText [] = [] := rfl

/-- A further link is written with its combinator in front. -/
@[simp] lemma chainText_cons (l : Link) (ls : List Link) :
    chainText (l :: ls) = l.combinator.text.toList ++ (l.compound.text.toList ++ chainText ls) := by
  rw [chainText, List.flatMap_cons, Link.text, String.toList_append, List.append_assoc]
  rfl

/-- A compound does not begin with a blank. -/
lemma BeginsCompound.beginsNonblank {cs : List Char} (h : BeginsCompound cs) : BeginsNonblank cs := by
  obtain ⟨c, ds, rfl, hblank, -⟩ := h
  intro d hd
  cases hd
  exact hblank

/-- The end of a chain ends a compound too. -/
lemma EndsChain.endsCompound {rest : List Char} (h : EndsChain rest) : EndsCompound rest := by
  intro c hc
  obtain rfl | ⟨more, rfl⟩ := h <;> cases hc
  exact .inr rfl

/-- The text of a combinator begins with a space. -/
lemma toList_combinator (combinator : Combinator) : ∃ cs, combinator.text.toList = ' ' :: cs := by
  cases combinator <;> exact ⟨_, rfl⟩

/-- The text of the further links ends a compound. -/
lemma endsCompound_chainText (ls : List Link) {rest : List Char} (hrest : EndsChain rest) :
    EndsCompound (chainText ls ++ rest) := by
  cases ls with
  | nil => exact hrest.endsCompound
  | cons l ls =>
    intro c hc
    obtain ⟨cs, heq⟩ := toList_combinator l.combinator
    rw [chainText_cons, heq] at hc
    cases hc
    exact .inl rfl

/-- The text of the further chains ends a chain. -/
lemma endsChain_furtherText (xs : List Complex) : EndsChain (furtherText xs) := by
  cases xs with
  | nil => exact .inl rfl
  | cons x xs => exact .inr ⟨_, rfl⟩

/-- The text of a spelled component begins a compound. -/
lemma beginsCompound_simple {s : Simple} (h : s.IsSpelled) (rest : List Char) :
    BeginsCompound (s.text.toList ++ rest) := by
  cases s with
  | parent => exact ⟨'&', rest, rfl, by decide, by decide, rfl⟩
  | universal => exact ⟨'*', rest, rfl, by decide, by decide, rfl⟩
  | type name =>
    obtain ⟨hname, hbegin, -⟩ := h
    obtain ⟨c, cs, heq⟩ := List.exists_cons_of_ne_nil hname.1
    rw [heq] at hname hbegin
    refine ⟨c, cs ++ rest, by rw [Simple.text, heq, List.cons_append], hbegin c rfl,
      hname.head_ne (by decide), ?_⟩
    rw [Simple.text, heq, List.cons_append, readCombinator]
    · exact fun _ h => hname.head_ne (by decide) (List.cons.inj h).1
    · exact fun _ h => hname.head_ne (by decide) (List.cons.inj h).1
    · exact fun _ h => hname.head_ne (by decide) (List.cons.inj h).1
  | _ =>
    simp only [Simple.text, String.toList_append, List.append_assoc]
    exact ⟨_, _, rfl, by decide, by decide, rfl⟩

/-- The text of a compound begins with one of its components. -/
lemma beginsCompound_text {c : Compound} (h : c.IsComposed) (rest : List Char) :
    BeginsCompound (c.text.toList ++ rest) := by
  obtain ⟨s, ss, heq⟩ := List.exists_cons_of_ne_nil h.nonempty
  rw [toList_text, heq, spelling_cons, List.append_assoc]
  exact beginsCompound_simple (h.isSpelled s (by rw [heq]; exact List.mem_cons_self)) _

/-- No blanks are skipped in front of a comma. -/
lemma skipBlanks_comma (more : List Char) : skipBlanks (',' :: more) = ',' :: more :=
  rfl

/-! ## Chains -/

/-- No combinator is read at the end of a chain. -/
lemma readJoint_end {rest : List Char} (h : EndsChain rest) : readJoint rest = (none, rest) := by
  obtain rfl | ⟨more, rfl⟩ := h
  · rfl
  · rw [readJoint, skipBlanks_comma]
    simp [readCombinator]

/-- The combinator of a further link is read in front of its compound. -/
lemma readJoint_link (combinator : Combinator) {cs : List Char} (h : BeginsCompound cs) :
    ∃ cs', readJoint (combinator.text.toList ++ cs) = (some combinator, cs') ∧ skipBlanks cs' = cs := by
  have hskip := skipBlanks_eq_self h.beginsNonblank
  have hblank : skipBlanks (' ' :: cs) = cs := hskip
  cases combinator with
  | descendant =>
    obtain ⟨c, ds, rfl, -, hcomma, hnone⟩ := h
    refine ⟨c :: ds, ?_, hskip⟩
    change readJoint (' ' :: c :: ds) = _
    rw [readJoint, hblank]
    simp [hnone, hcomma]
  | child | nextSibling | subsequentSibling => exact ⟨' ' :: cs, rfl, hblank⟩

section Links

variable {combinator next : Combinator} {components : List Simple} {cs rest behind : List Char}

/-- The reader of links takes one compound, and goes on if a combinator follows. -/
lemma readLinks_eq (combinator : Combinator) (cs : List Char) : readLinks combinator cs =
    match readComponents [] (skipBlanks cs) with
    | .error mistake => .error mistake
    | .ok ([], rest) => .error ⟨.selectorExpected rest.head?, rest⟩
    | .ok (s :: ss, rest) =>
      match readJoint rest with
      | (none, rest) => .ok ([⟨combinator, ⟨s :: ss⟩⟩], rest)
      | (some next, rest) =>
        match readLinks next rest with
        | .error mistake => .error mistake
        | .ok (links, rest) => .ok (⟨combinator, ⟨s :: ss⟩⟩ :: links, rest) := by
  rw [readLinks]
  split
  · next h => rw [h]
  · next h => rw [h]
  · next h =>
    dsimp only
    rw [h]
    split
    · next hj =>
      dsimp only
      rw [hj]
    · next hj =>
      dsimp only
      exact hj ▸ rfl

/-- A link is the last one if no combinator follows it. -/
lemma readLinks_last (h : readComponents [] (skipBlanks cs) = .ok (components, rest))
    (hne : components ≠ []) (hj : readJoint rest = (none, behind)) :
    readLinks combinator cs = .ok ([⟨combinator, ⟨components⟩⟩], behind) := by
  obtain ⟨s, ss, rfl⟩ := List.exists_cons_of_ne_nil hne
  rw [readLinks_eq, h]
  dsimp only
  rw [hj]

/-- A link in front of a combinator is followed by the links behind that. -/
lemma readLinks_more (h : readComponents [] (skipBlanks cs) = .ok (components, rest))
    (hne : components ≠ []) (hj : readJoint rest = (some next, behind)) :
    readLinks combinator cs = match readLinks next behind with
      | .error mistake => .error mistake
      | .ok (links, rest) => .ok (⟨combinator, ⟨components⟩⟩ :: links, rest) := by
  obtain ⟨s, ss, rfl⟩ := List.exists_cons_of_ne_nil hne
  rw [readLinks_eq, h]
  dsimp only
  rw [hj]

/-- A mistake in a compound is a mistake in the chain. -/
lemma readLinks_fault {mistake : Mistake} (h : readComponents [] (skipBlanks cs) = .error mistake) :
    readLinks combinator cs = .error mistake := by
  rw [readLinks_eq, h]

end Links

/-- The links of a chain are read through its end. -/
theorem readLinks_text {l : Link} {ls : List Link} {cs rest : List Char}
    (hskip : skipBlanks cs = l.compound.text.toList ++ (chainText ls ++ rest))
    (hc : ∀ k ∈ l :: ls, k.compound.IsComposed) (hr : ∀ k ∈ l :: ls, k.compound.IsReadable)
    (hrest : EndsChain rest) :
    readLinks l.combinator cs = .ok ((l :: ls).map Link.reread, rest) := by
  induction ls generalizing l cs with
  | nil =>
    have hlc := hc l List.mem_cons_self
    have hread := readComponents_text hlc (hr l List.mem_cons_self) hrest.endsCompound
    rw [← List.nil_append rest, ← chainText_nil, ← hskip] at hread
    exact readLinks_last hread hlc.reread_ne_nil (readJoint_end hrest)
  | cons k ls ih =>
    obtain ⟨hlc, hcs⟩ := List.forall_mem_cons.1 hc
    obtain ⟨hlr, hrs⟩ := List.forall_mem_cons.1 hr
    -- the text is followed up to white space, so the joint may leave some before the next compound
    have hread := readComponents_text hlc hlr (endsCompound_chainText (k :: ls) hrest)
    rw [← hskip] at hread
    have hbegin := beginsCompound_text (hcs k List.mem_cons_self) (chainText ls ++ rest)
    obtain ⟨cs', hj, hskip'⟩ := readJoint_link k.combinator hbegin
    rw [readLinks_more hread hlc.reread_ne_nil (by rw [← hj]; simp), ih hskip' hcs hrs]
    rfl

/-- A chain with a compound that is not readable is refused. -/
theorem readLinks_text_error {l : Link} {ls : List Link} {cs rest : List Char}
    (hskip : skipBlanks cs = l.compound.text.toList ++ (chainText ls ++ rest))
    (hc : ∀ k ∈ l :: ls, k.compound.IsComposed) (hr : ∃ k ∈ l :: ls, ¬k.compound.IsReadable)
    (hrest : EndsChain rest) : ∃ mistake, readLinks l.combinator cs = .error mistake := by
  induction ls generalizing l cs with
  | nil =>
    obtain ⟨k, hk, hbad⟩ := hr
    obtain rfl := List.mem_singleton.1 hk
    obtain ⟨mistake, h⟩ := readComponents_text_error (hc k hk) hbad hrest.endsCompound
    rw [← List.nil_append rest, ← chainText_nil, ← hskip] at h
    exact ⟨mistake, readLinks_fault h⟩
  | cons k ls ih =>
    obtain ⟨hlc, hcs⟩ := List.forall_mem_cons.1 hc
    have hend := endsCompound_chainText (k :: ls) hrest
    by_cases hlr : l.compound.IsReadable
    · have hread := readComponents_text hlc hlr hend
      rw [← hskip] at hread
      have hbegin := beginsCompound_text (hcs k List.mem_cons_self) (chainText ls ++ rest)
      obtain ⟨cs', hj, hskip'⟩ := readJoint_link k.combinator hbegin
      obtain ⟨j, hjmem, hbad⟩ := hr
      have hjmem : j ∈ k :: ls := (List.mem_cons.1 hjmem).resolve_left fun heq => hbad (heq ▸ hlr)
      obtain ⟨mistake, h⟩ := ih hskip' hcs ⟨j, hjmem, hbad⟩
      rw [readLinks_more hread hlc.reread_ne_nil (by rw [← hj]; simp), h]
      exact ⟨mistake, rfl⟩
    · obtain ⟨mistake, h⟩ := readComponents_text_error hlc hlr hend
      rw [← hskip] at h
      exact ⟨mistake, readLinks_fault h⟩

/-! ## Lists -/

/-- The text of a chain is its leading combinator, its first compound and the further links. -/
lemma toList_complex (l : Link) (ls : List Link) : (Complex.mk (l :: ls)).text.toList =
    l.combinator.leadingText.toList ++ (l.compound.text.toList ++ chainText ls) := by
  simp only [Complex.text, String.toList_append, String.toList_join, List.flatMap_map,
    List.append_assoc]
  rfl

/-- The text of a chain does not begin with a blank. -/
lemma beginsNonblank_complex {x : Complex} (h : x.IsComposed) (rest : List Char) :
    BeginsNonblank (x.text.toList ++ rest) := by
  obtain ⟨l, ls, heq⟩ := List.exists_cons_of_ne_nil h.nonempty
  obtain ⟨links⟩ := x
  obtain rfl : links = l :: ls := heq
  have hbegin := beginsCompound_text (h.compounds l List.mem_cons_self) (chainText ls ++ rest)
  rw [toList_complex, List.append_assoc, List.append_assoc]
  cases l.combinator with
  | descendant => exact hbegin.beginsNonblank
  | child | nextSibling | subsequentSibling =>
    intro c hc
    cases hc
    decide

/-- The combinator that is written before the first compound leads the links. -/
lemma readLead_text {l : Link} {ls : List Link} {cs rest : List Char} (hl : l.compound.IsComposed)
    (hskip : skipBlanks cs = (Complex.mk (l :: ls)).text.toList ++ rest) :
    (readLead cs).1 = l.combinator ∧
      skipBlanks (readLead cs).2 = l.compound.text.toList ++ (chainText ls ++ rest) := by
  have hbegin := beginsCompound_text hl (chainText ls ++ rest)
  have hself := skipBlanks_eq_self hbegin.beginsNonblank
  rw [toList_complex, List.append_assoc, List.append_assoc] at hskip
  rw [readLead, hskip]
  cases l.combinator with
  | descendant =>
    obtain ⟨c, ds, heq, -, -, hnone⟩ := hbegin
    change ((readCombinator (l.compound.text.toList ++ (chainText ls ++ rest))).getD
      (.descendant, l.compound.text.toList ++ (chainText ls ++ rest))).1 = _ ∧
      skipBlanks ((readCombinator (l.compound.text.toList ++ (chainText ls ++ rest))).getD
      (.descendant, l.compound.text.toList ++ (chainText ls ++ rest))).2 = _
    rw [hnone]
    exact ⟨rfl, hself⟩
  | child | nextSibling | subsequentSibling => exact ⟨rfl, hself⟩

section Selectors

variable {cs more : List Char} {links : List Link}

/-- The reader of a list takes one chain, and goes on if a comma follows. -/
lemma readSelectors_eq (cs : List Char) : readSelectors cs =
    match readLinks (readLead cs).1 (readLead cs).2 with
    | .error mistake => .error mistake
    | .ok (links, rest) =>
      match skipBlanks rest with
      | [] => .ok [⟨links⟩]
      | c :: more =>
        if c = ',' then
          match readSelectors more with
          | .error mistake => .error mistake
          | .ok selectors => .ok (⟨links⟩ :: selectors)
        else .error ⟨.unexpected c, more⟩ := by
  rw [readSelectors]
  split
  · next h => rw [h]
  · next h =>
    dsimp only
    rw [h]
    split
    · next hr =>
      dsimp only
      rw [hr]
    · next hr =>
      dsimp only
      exact hr ▸ rfl

/-- A chain is the last one at the end of the text. -/
lemma readSelectors_last (h : readLinks (readLead cs).1 (readLead cs).2 = .ok (links, [])) :
    readSelectors cs = .ok [⟨links⟩] := by
  rw [readSelectors_eq, h]
  rfl

/-- A chain in front of a comma is followed by the chains behind that. -/
lemma readSelectors_more (h : readLinks (readLead cs).1 (readLead cs).2 = .ok (links, ',' :: more)) :
    readSelectors cs = match readSelectors more with
      | .error mistake => .error mistake
      | .ok selectors => .ok (⟨links⟩ :: selectors) := by
  rw [readSelectors_eq, h]
  dsimp only
  rw [skipBlanks_comma]
  rfl

/-- A mistake in a chain is a mistake in the list. -/
lemma readSelectors_fault {mistake : Mistake}
    (h : readLinks (readLead cs).1 (readLead cs).2 = .error mistake) :
    readSelectors cs = .error mistake := by
  rw [readSelectors_eq, h]

end Selectors

/-- A selector at the beginning of a list is read through its end. -/
lemma readLinks_complex {x : Complex} {cs rest : List Char}
    (hskip : skipBlanks cs = x.text.toList ++ rest) (hc : x.IsComposed) (hrest : EndsChain rest) :
    (x.IsReadable → readLinks (readLead cs).1 (readLead cs).2 = .ok (x.reread.links, rest)) ∧
      (¬x.IsReadable → ∃ mistake, readLinks (readLead cs).1 (readLead cs).2 = .error mistake) := by
  obtain ⟨l, ls, heq⟩ := List.exists_cons_of_ne_nil hc.nonempty
  obtain ⟨links⟩ := x
  obtain rfl : links = l :: ls := heq
  obtain ⟨hlead, hbehind⟩ := readLead_text (hc.compounds l List.mem_cons_self) hskip
  rw [hlead]
  constructor
  · intro hr
    exact readLinks_text hbehind hc.compounds hr hrest
  · intro hr
    refine readLinks_text_error hbehind hc.compounds ?_ hrest
    by_contra hno
    exact hr fun k hk => by_contra fun hbad => hno ⟨k, hk, hbad⟩

/-- A single space is skipped in front of a further chain. -/
lemma skipBlanks_furtherText {x : Complex} (h : x.IsComposed) (xs : List Complex) :
    skipBlanks (' ' :: (x.text.toList ++ furtherText xs)) = x.text.toList ++ furtherText xs :=
  (skipBlanks_cons _ (by decide)).trans (skipBlanks_eq_self (beginsNonblank_complex h _))

/-- The selectors of a list are read to the end of the text. -/
theorem readSelectors_text {x : Complex} {xs : List Complex} {cs : List Char}
    (hskip : skipBlanks cs = x.text.toList ++ furtherText xs) (hc : ∀ y ∈ x :: xs, y.IsComposed)
    (hr : ∀ y ∈ x :: xs, y.IsReadable) :
    readSelectors cs = .ok ((x :: xs).map Complex.reread) := by
  induction xs generalizing x cs with
  | nil =>
    have hread := (readLinks_complex hskip (hc x List.mem_cons_self) (.inl rfl)).1
    exact readSelectors_last (hread (hr x List.mem_cons_self))
  | cons y xs ih =>
    obtain ⟨hcx, hcs⟩ := List.forall_mem_cons.1 hc
    obtain ⟨hrx, hrs⟩ := List.forall_mem_cons.1 hr
    have hread := (readLinks_complex hskip hcx (endsChain_furtherText (y :: xs))).1 hrx
    rw [furtherText_cons] at hread
    have hnext := skipBlanks_furtherText (hcs y List.mem_cons_self) xs
    rw [readSelectors_more hread, ih hnext hcs hrs]
    rfl

/-- A list with a selector that is not readable is refused. -/
theorem readSelectors_text_error {x : Complex} {xs : List Complex} {cs : List Char}
    (hskip : skipBlanks cs = x.text.toList ++ furtherText xs) (hc : ∀ y ∈ x :: xs, y.IsComposed)
    (hr : ∃ y ∈ x :: xs, ¬y.IsReadable) : ∃ mistake, readSelectors cs = .error mistake := by
  induction xs generalizing x cs with
  | nil =>
    obtain ⟨y, hy, hbad⟩ := hr
    obtain rfl := List.mem_singleton.1 hy
    obtain ⟨mistake, h⟩ := (readLinks_complex hskip (hc y hy) (.inl rfl)).2 hbad
    exact ⟨mistake, readSelectors_fault h⟩
  | cons y xs ih =>
    obtain ⟨hcx, hcs⟩ := List.forall_mem_cons.1 hc
    obtain ⟨hgood, hbad⟩ := readLinks_complex hskip hcx (endsChain_furtherText (y :: xs))
    rw [furtherText_cons] at hgood
    by_cases hrx : x.IsReadable
    · obtain ⟨z, hz, hzbad⟩ := hr
      have hz : z ∈ y :: xs := (List.mem_cons.1 hz).resolve_left fun heq => hzbad (heq ▸ hrx)
      have hnext := skipBlanks_furtherText (hcs y List.mem_cons_self) xs
      obtain ⟨mistake, h⟩ := ih hnext hcs ⟨z, hz, hzbad⟩
      rw [readSelectors_more (hgood hrx), h]
      exact ⟨mistake, rfl⟩
    · obtain ⟨mistake, h⟩ := hbad hrx
      exact ⟨mistake, readSelectors_fault h⟩

end Grammar

namespace SelectorList

open Text Grammar

/-- The text of a list is that of its first chain and of the further ones. -/
lemma toList_selectors (x : Complex) (xs : List Complex) (position : Position) :
    (SelectorList.mk (x :: xs) position).text.toList = x.text.toList ++ furtherText xs := by
  have hlist (y : List Char) (ys : List (List Char)) : ", ".toList.intercalate (y :: ys) =
      y ++ ys.flatMap fun z => ',' :: ' ' :: z := by
    induction ys generalizing y with
    | nil => simp
    | cons z ys ih => rw [List.intercalate_cons_cons, ih, List.flatMap_cons, List.append_assoc]; rfl
  rw [text, String.toList_intercalate, List.map_map, List.map_cons, hlist, List.flatMap_map]
  rfl

/-- A list of composed and readable selectors is read from its text. -/
theorem parse_text {l : SelectorList} (hne : l.selectors ≠ []) (hc : ∀ x ∈ l.selectors, x.IsComposed)
    (hr : ∀ x ∈ l.selectors, x.IsReadable) (position : Position) :
    SelectorList.parse l.text position = .ok ⟨l.selectors.map Complex.reread, position⟩ := by
  obtain ⟨selectors, place⟩ := l
  obtain ⟨x, xs, rfl⟩ := List.exists_cons_of_ne_nil hne
  have hskip := skipBlanks_eq_self (beginsNonblank_complex (hc x List.mem_cons_self) (furtherText xs))
  rw [parse, toList_selectors, readSelectors_text hskip hc hr]

/-- The text of any other list of composed selectors is refused. -/
theorem parse_text_error {l : SelectorList} (hc : ∀ x ∈ l.selectors, x.IsComposed)
    (hr : ∃ x ∈ l.selectors, ¬x.IsReadable) (position : Position) :
    ∃ error, SelectorList.parse l.text position = .error error := by
  obtain ⟨selectors, place⟩ := l
  obtain ⟨y, hy, hbad⟩ := hr
  obtain ⟨x, xs, rfl⟩ := List.exists_cons_of_ne_nil (List.ne_nil_of_mem hy)
  have hskip := skipBlanks_eq_self (beginsNonblank_complex (hc x List.mem_cons_self) (furtherText xs))
  obtain ⟨mistake, h⟩ := readSelectors_text_error hskip hc ⟨y, hy, hbad⟩
  rw [parse, toList_selectors, h]
  exact ⟨_, rfl⟩

/-- A well-formed list is read from its text as itself, at any place. -/
theorem parse_text_eq_self {l : SelectorList} (h : l.IsWellFormed) (position : Position) :
    SelectorList.parse l.text position = .ok ⟨l.selectors, position⟩ := by
  have hmap : l.selectors.map Complex.reread = l.selectors :=
    (List.map_congr_left fun x hx => (h.selectors x hx).reread_eq).trans (List.map_id _)
  rw [parse_text h.nonempty (fun x hx => (h.selectors x hx).isComposed)
    (fun x hx => (h.selectors x hx).isReadable), hmap]

/-- A list with each kind of component, an explicit first combinator and a value with an escaped quote. -/
theorem parse_text_eq_self_mixed : ∃ l : SelectorList,
    l.text = "> &&h1.a\\.b[x|=\"p\\\"q r\"] *:not((a) b), %é[y=z]::before ~ #-1" ∧ l.IsWellFormed ∧
      SelectorList.parse l.text .start = .ok ⟨l.selectors, .start⟩ := by
  let c : Compound :=
    ⟨[.parent, .parent, .type "h1", .className "a\\.b", .attr "x" (some ⟨.dashMatch, "p\\\"q r"⟩)]⟩
  let d : Compound := ⟨[.universal, .pseudoClass "not" (some "(a) b")]⟩
  let e : Compound := ⟨[.placeholder "é", .attr "y" (some ⟨.equals, "z"⟩), .pseudoElement "before" none]⟩
  let f : Compound := ⟨[.id "-1"]⟩
  let l : SelectorList := ⟨[⟨[⟨.child, c⟩, ⟨.descendant, d⟩]⟩, ⟨[⟨.descendant, e⟩,
    ⟨.subsequentSibling, f⟩]⟩], .start⟩
  have hc : c.IsWellFormed :=
    ⟨by decide, by decide +kernel, 2, some (.type "h1"), _, rfl, by simp, by decide, by decide +kernel⟩
  have hd : d.IsWellFormed :=
    ⟨by decide, by decide +kernel, 0, some .universal, _, rfl, by simp, by decide, by simp⟩
  have he : e.IsWellFormed :=
    ⟨by decide, by decide +kernel, 0, none, _, rfl, by simp, by decide, by simp⟩
  have hf : f.IsWellFormed :=
    ⟨by decide, by decide +kernel, 0, none, _, rfl, by simp, by decide, by simp⟩
  have hx : Complex.IsWellFormed ⟨[⟨.child, c⟩, ⟨.descendant, d⟩]⟩ :=
    ⟨List.cons_ne_nil _ _, List.forall_mem_cons.2 ⟨hc, List.forall_mem_singleton.2 hd⟩⟩
  have hy : Complex.IsWellFormed ⟨[⟨.descendant, e⟩, ⟨.subsequentSibling, f⟩]⟩ :=
    ⟨List.cons_ne_nil _ _, List.forall_mem_cons.2 ⟨he, List.forall_mem_singleton.2 hf⟩⟩
  have h : l.IsWellFormed :=
    ⟨List.cons_ne_nil _ _, List.forall_mem_cons.2 ⟨hx, List.forall_mem_singleton.2 hy⟩⟩
  exact ⟨l, by decide +kernel, h, parse_text_eq_self h .start⟩

end SelectorList

end ScssExtend
