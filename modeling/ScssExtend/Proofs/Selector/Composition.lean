import ScssExtend.Proofs.Selector.CompoundReading

/-!
# Readers give composed selectors

Whatever is read as a simple selector is spelled (`isSpelled_of_readFirst`). The readers let nothing but `&` stand
before a type or `*`, and no suffix behind `&`, so that the components of a compound are arranged
(`Front.of_readComponents`). So every list of selectors that is read from a text consists of composed selectors
(`SelectorList.isComposed_of_parse`), in which all compounds are arranged (`SelectorList.isArranged_of_parse`);
`SelectorList.shape_of_parse` takes the two together.
-/

namespace ScssExtend

/-- The result of a computation can be tested. -/
lemma exists_of_any_toOption {ε α : Type} {x : Except ε α} {p : α → Prop} [DecidablePred p]
    (h : x.toOption.any fun a => decide (p a)) : ∃ a, x = .ok a ∧ p a := by
  cases x with
  | error e => cases h
  | ok a => exact ⟨a, rfl, of_decide_eq_true h⟩

/-- The failure of a computation can be tested. -/
lemma exists_error_of_test {ε α : Type} {x : Except ε α} {p : ε → Prop} [DecidablePred p]
    (h : (match x with | .error e => decide (p e) | .ok _ => false) = true) : ∃ e, x = .error e ∧ p e := by
  cases x with
  | error e => exact ⟨e, rfl, of_decide_eq_true h⟩
  | ok a => cases h

/-- A nonempty list of composed selectors. -/
structure SelectorList.IsComposed (l : SelectorList) : Prop where
  nonempty : l.selectors ≠ []
  selectors : ∀ x ∈ l.selectors, x.IsComposed

namespace Grammar

open Text Simple

/-- A type that is read from this text begins with no blank character. -/
def BeginsType (cs : List Char) : Prop :=
  ∀ c ∈ cs.head?, isIdentChar c → isBlank c = false

/-- What was read and then marked as found was read. -/
lemma eq_ok_of_map {α : Type} {x : Except Mistake α} {a : α} (h : some <$> x = .ok (some a)) :
    x = .ok a := by
  cases x with
  | error mistake => cases h
  | ok b =>
    cases h
    rfl

/-! ## Simple selectors -/

/-- No escape of a value is cut in two. -/
lemma escapedRun_of_readValue {cs rest : List Char} {value : String}
    (h : readValue cs = .ok (value, rest)) : EscapedRun (fun _ => true) value.toList := by
  unfold readValue at h
  split at h
  · exact (isName_of_readName h).2.mono fun _ _ => rfl
  · split at h
    · split at h
      · next hspan =>
        cases h
        rw [String.toList_ofList]
        exact escapedRun_of_spanQuoted hspan
      · cases h
    · exact (isName_of_readName h).2.mono fun _ _ => rfl

/-- What is read as an attribute selector is spelled. -/
lemma isSpelled_of_readAttribute {cs rest : List Char} {s : Simple}
    (h : readAttribute cs = .ok (s, rest)) : s.IsSpelled ∧ s.isTypeLike = false := by
  obtain ⟨⟨name, cs₁⟩, h₁, h⟩ := bind_eq_ok.1 h
  obtain ⟨⟨operator, cs₂⟩, h₂, h⟩ := bind_eq_ok.1 h
  have hname := isName_of_readName h₁
  have hbegin : BeginsNonblank name.toList := by
    intro c hc
    rw [head?_of_readName h₁] at hc
    exact beginsNonblank_skipBlanks cs c hc
  cases operator with
  | none =>
    cases h
    exact ⟨⟨hname, hbegin, fun m hm => absurd hm (by simp)⟩, rfl⟩
  | some operator =>
    obtain ⟨⟨value, cs₃⟩, h₃, h⟩ := bind_eq_ok.1 h
    obtain ⟨⟨_, cs₄⟩, h₄, h⟩ := bind_eq_ok.1 h
    cases h
    refine ⟨⟨hname, hbegin, fun m hm => ?_⟩, rfl⟩
    cases hm
    exact escapedRun_of_readValue h₃

/-- What is read as an argument is balanced and trimmed. -/
lemma isBalanced_of_readArgument {cs rest : List Char} {argument : Option String}
    (h : readArgument cs = .ok (argument, rest)) :
    ∀ a ∈ argument, IsBalanced a.toList ∧ IsTrimmed a.toList := by
  unfold readArgument at h
  split at h
  · split at h
    · next hspan =>
      cases h
      intro a ha
      cases ha
      rw [String.toList_ofList]
      exact ⟨(depthAfter?_trim 0 _).trans (depthAfter?_of_spanArgument hspan), isTrimmed_trim _⟩
    · cases h
  · cases h
    exact fun a ha => absurd ha (by simp)

/-- What is read as a pseudo-class or pseudo-element is spelled. -/
lemma isSpelled_of_readPseudo {cs rest : List Char} {s : Simple} (h : readPseudo cs = .ok (s, rest)) :
    s.IsSpelled ∧ s.isTypeLike = false := by
  unfold readPseudo at h
  split at h
  next heq =>
    obtain ⟨⟨name, cs₁⟩, h₁, h⟩ := bind_eq_ok.1 h
    obtain ⟨⟨argument, cs₂⟩, h₂, h⟩ := bind_eq_ok.1 h
    have hspelled := And.intro (isName_of_readName h₁) (isBalanced_of_readArgument h₂)
    cases h
    split at heq <;> cases heq <;> exact ⟨hspelled, rfl⟩

/-- What is read as a type is spelled, if its text does not begin with a blank. -/
lemma isSpelled_of_readType {c : Char} {cs rest : List Char} {name : String}
    (hstart : isIdentStart c || c = '-' || c = '\\') (hbegin : BeginsType (c :: cs))
    (h : readName .typeSelector (c :: cs) = .ok (name, rest)) : (type name).IsSpelled := by
  have hname := isName_of_readName h
  have hhead := head?_of_readName h
  have hblank : isBlank c = false := by
    obtain ⟨ds, heq⟩ := List.head?_eq_some_iff.1 hhead
    rw [heq] at hname
    obtain hc | rfl := hname.head
    · exact hbegin c rfl hc
    · decide
  have hdigit : c.isDigit = false := by
    simp only [Bool.or_eq_true, decide_eq_true_eq] at hstart
    obtain (hc | rfl) | rfl := hstart
    · exact isDigit_of_isIdentStart hc
    · decide
    · decide
  refine ⟨hname, fun d hd => ?_, fun d hd => ?_⟩
  · rw [hhead] at hd
    cases hd
    exact hblank
  · rw [hhead] at hd
    cases hd
    exact hdigit

/-- What is read is `&` that no suffix follows, `*`, a type, or another component, which is spelled. -/
lemma readFirst_cases {cs rest : List Char} {s : Simple} (h : readFirst cs = .ok (some (s, rest))) :
    (s = .parent ∧ rest.head?.any isSuffixStart = false) ∨ s = .universal ∨
      (∃ c ds name, cs = c :: ds ∧ (isIdentStart c || c = '-' || c = '\\') ∧ s = .type name ∧
        readName .typeSelector cs = .ok (name, rest)) ∨
      s.isTypeLike = false ∧ s.IsSpelled := by
  cases cs with
  | nil => cases h
  | cons c cs =>
    rw [readFirst, readSimple.eq_def] at h
    split at h
    · split at h
      · cases h
      · next hsuffix =>
        cases h
        exact .inl ⟨rfl, Bool.eq_false_iff.2 hsuffix⟩
    · cases h
      exact .inr (.inl rfl)
    · obtain ⟨⟨name, cs₁⟩, h₁, h⟩ := bind_eq_ok.1 h
      cases h
      exact .inr (.inr (.inr ⟨rfl, isName_of_readName h₁⟩))
    · obtain ⟨⟨name, cs₁⟩, h₁, h⟩ := bind_eq_ok.1 h
      cases h
      exact .inr (.inr (.inr ⟨rfl, isName_of_readName h₁⟩))
    · obtain ⟨⟨name, cs₁⟩, h₁, h⟩ := bind_eq_ok.1 h
      cases h
      exact .inr (.inr (.inr ⟨rfl, isName_of_readName h₁⟩))
    · exact .inr (.inr (.inr (isSpelled_of_readAttribute (eq_ok_of_map h)).symm))
    · exact .inr (.inr (.inr (isSpelled_of_readPseudo (eq_ok_of_map h)).symm))
    · split at h
      · next hstart =>
        obtain ⟨⟨name, cs₁⟩, h₁, h⟩ := bind_eq_ok.1 h
        cases h
        exact .inr (.inr (.inl ⟨c, cs, name, rfl, hstart, rfl, h₁⟩))
      · cases h

/-- Whatever is read as a simple selector is spelled. -/
lemma isSpelled_of_readFirst {cs rest : List Char} {s : Simple}
    (h : readFirst cs = .ok (some (s, rest))) (hbegin : s.isTypeLike → BeginsType cs) :
    s.IsSpelled := by
  obtain ⟨rfl, -⟩ | rfl | ⟨c, ds, name, rfl, hstart, rfl, hname⟩ | ⟨-, hs⟩ := readFirst_cases h
  · trivial
  · trivial
  · exact isSpelled_of_readType hstart (hbegin rfl) hname
  · exact hs

/-! ## Compounds -/

/-- What no suffix begins may begin a type. -/
lemma beginsType_of_not_suffix {cs : List Char} (h : cs.head?.any isSuffixStart = false) :
    BeginsType cs := by
  intro c hc hident
  rw [Option.mem_def.1 hc, Option.any_some] at h
  refine isBlank_of_isAlpha (Decidable.byContradiction fun halpha => ?_)
  simp [isSuffixStart, hident, halpha] at h

/-- What begins a type but is no suffix is a letter. -/
lemma isAlpha_of_not_suffix {c : Char} {cs : List Char} (h : IsName (c :: cs))
    (hsuffix : isSuffixStart c = false) : c.isAlpha := by
  simp only [isSuffixStart, Bool.or_eq_false_iff, Bool.and_eq_false_iff, decide_eq_false_iff_not,
    Bool.not_eq_false'] at hsuffix
  obtain ⟨hident | halpha, hescape⟩ := hsuffix
  · obtain hc | hc := h.head
    · rw [hident] at hc
      cases hc
    · exact absurd hc hescape
  · exact halpha

/-- The components read so far and the text behind them: as long as there is nothing but `&`, a type may
follow, but no suffix. -/
structure Front (sofar : List Simple) (cs : List Char) : Prop where
  isSpelled : ∀ s ∈ sofar, s.IsSpelled
  isArranged : Compound.IsArranged ⟨sofar⟩
  beginsType : (∀ s ∈ sofar, s = .parent) → BeginsType cs
  noSuffix : sofar ≠ [] → (∀ s ∈ sofar, s = .parent) → cs.head?.any isSuffixStart = false

/-- In front of a compound no component has been read. -/
lemma Front.nil {cs : List Char} (h : BeginsType cs) : Front [] cs :=
  ⟨List.forall_mem_nil _, ⟨0, none, [], by simp⟩, fun _ => h, fun hne => absurd rfl hne⟩

section Concat

variable {sofar : List Simple} {s : Simple} {cs rest : List Char}

/-- Behind `&` a type that begins with a letter is arranged, and so is `*`. -/
lemma isArranged_lead {n : Nat} (hs : s = .universal ∨ ∃ name, s = .type name)
    (halpha : 0 < n → ∀ name ∈ s.typeName?, ∀ ch ∈ name.toList.head?, ch.isAlpha) :
    Compound.IsArranged ⟨List.replicate n .parent ++ [s]⟩ := by
  refine ⟨n, some s, [], by simp, fun s' hs' => ?_, by simp, halpha⟩
  cases hs'
  exact hs

/-- Other components may stand behind arranged ones. -/
lemma isArranged_concat (h : Compound.IsArranged ⟨sofar⟩) (hs : s.isTypeLike = false) :
    Compound.IsArranged ⟨sofar ++ [s]⟩ := by
  obtain ⟨n, lead, others, rfl, hlead, ho, halpha⟩ := h
  refine ⟨n, lead, others ++ [s], List.append_assoc _ _ _, hlead, ?_, halpha⟩
  exact List.forall_mem_append.2 ⟨ho, List.forall_mem_singleton.2 hs⟩

/-- The next component is arranged behind those read so far. -/
lemma Front.isArranged_next (hf : Front sofar cs) (h : readFirst cs = .ok (some (s, rest)))
    (hplace : s.isTypeLike = false ∨ ∀ t ∈ sofar, t = .parent) :
    Compound.IsArranged ⟨sofar ++ [s]⟩ := by
  obtain hs | hall := hplace
  · exact isArranged_concat hf.isArranged hs
  obtain ⟨n, rfl⟩ : ∃ n, sofar = List.replicate n .parent := ⟨_, List.eq_replicate_of_mem hall⟩
  obtain ⟨rfl, -⟩ | rfl | ⟨c, ds, name, rfl, -, rfl, hname⟩ | ⟨hs, -⟩ := readFirst_cases h
  · exact ⟨n + 1, none, [], by simp [List.replicate_succ'], by simp, by simp, by simp⟩
  · exact isArranged_lead (.inl rfl) (by simp [typeName?])
  · refine isArranged_lead (.inr ⟨name, rfl⟩) fun hpos name' hname' ch hch => ?_
    cases hname'
    have hhead := head?_of_readName hname
    rw [hhead] at hch
    cases hch
    -- the type begins behind `&`, where the reader of `&` has excluded a suffix
    have hsuffix := hf.noSuffix (mt (List.replicate_eq_nil_iff _).1 hpos.ne') hall
    obtain ⟨ds', heq⟩ := List.head?_eq_some_iff.1 hhead
    have hisName := isName_of_readName hname
    rw [heq] at hisName
    exact isAlpha_of_not_suffix hisName hsuffix
  · exact isArranged_concat hf.isArranged hs

/-- Every step of the reader of components keeps the front. -/
lemma Front.next (hf : Front sofar cs) (h : readFirst cs = .ok (some (s, rest)))
    (hplace : s.isTypeLike = false ∨ ∀ t ∈ sofar, t = .parent) : Front (sofar ++ [s]) rest := by
  have hsuffix (hall : ∀ t ∈ sofar ++ [s], t = .parent) : rest.head?.any isSuffixStart = false := by
    -- nothing but `&` was read, so the last component was one
    obtain rfl := hall s (List.mem_append_right _ (List.mem_singleton_self s))
    obtain ⟨-, hsuffix⟩ | h | ⟨_, _, _, -, -, h, -⟩ | ⟨h, -⟩ := readFirst_cases h
    · exact hsuffix
    · cases h
    · cases h
    · cases h
  have hspelled : s.IsSpelled := by
    refine isSpelled_of_readFirst h fun hs => hf.beginsType ?_
    obtain hs' | hall := hplace
    · rw [hs'] at hs
      cases hs
    · exact hall
  refine ⟨List.forall_mem_append.2 ⟨hf.isSpelled, List.forall_mem_singleton.2 hspelled⟩,
    hf.isArranged_next h hplace, fun hall => beginsType_of_not_suffix (hsuffix hall), fun _ => hsuffix⟩

end Concat

/-- A whole run of the reader of components keeps the front. -/
lemma Front.of_readComponents {sofar components : List Simple} {cs rest : List Char}
    (hf : Front sofar cs) (h : readComponents sofar cs = .ok (components, rest)) :
    Front components rest := by
  fun_induction readComponents sofar cs with
  | case1 => cases h; exact hf
  | case2 => cases h
  | case3 => cases h; exact hf
  | case4 => cases h
  | case5 sofar c cs s rest' hread _ hguard ih =>
    refine ih (hf.next hread ?_) h
    rw [Bool.not_eq_true, Bool.and_eq_false_iff, List.any_eq_false] at hguard
    exact hguard.imp_right fun hall t ht => by simpa using hall t ht

/-- What is read as a compound is composed and arranged. -/
lemma isComposed_of_readComponents {s : Simple} {ss : List Simple} {cs rest : List Char}
    (h : readComponents [] (skipBlanks cs) = .ok (s :: ss, rest)) :
    (Compound.mk (s :: ss)).IsComposed ∧ (Compound.mk (s :: ss)).IsArranged := by
  have hfront : Front (s :: ss) rest :=
    (Front.nil fun c hc _ => beginsNonblank_skipBlanks cs c hc).of_readComponents h
  exact ⟨⟨List.cons_ne_nil _ _, hfront.isSpelled, hfront.isArranged.isLed⟩, hfront.isArranged⟩

/-! ## Chains and lists -/

/-- What is read as links is a chain of composed and arranged compounds. -/
lemma isComposed_of_readLinks {combinator : Combinator} {cs rest : List Char} {links : List Link}
    (h : readLinks combinator cs = .ok (links, rest)) :
    (Complex.mk links).IsComposed ∧ ∀ l ∈ links, l.compound.IsArranged := by
  fun_induction readLinks combinator cs generalizing links with
  | case1 => cases h
  | case2 => cases h
  | case3 combinator cs s ss rest₁ hc rest₂ hj =>
    cases h
    obtain ⟨hcomposed, harranged⟩ := isComposed_of_readComponents hc
    exact ⟨⟨List.cons_ne_nil _ _, List.forall_mem_singleton.2 hcomposed⟩,
      List.forall_mem_singleton.2 harranged⟩
  | case4 => cases h
  | case5 combinator cs s ss rest₁ hc next rest₂ hj hlt links' rest₃ hl ih =>
    cases h
    obtain ⟨hcomposed, harranged⟩ := isComposed_of_readComponents hc
    obtain ⟨⟨-, hcomposeds⟩, harrangeds⟩ := ih hl
    exact ⟨⟨List.cons_ne_nil _ _, List.forall_mem_cons.2 ⟨hcomposed, hcomposeds⟩⟩,
      List.forall_mem_cons.2 ⟨harranged, harrangeds⟩⟩

/-- What is read as a list has chains, and these are composed and arranged. -/
lemma isComposed_of_readSelectors {cs : List Char} {selectors : List Complex}
    (h : readSelectors cs = .ok selectors) :
    selectors ≠ [] ∧ ∀ x ∈ selectors, x.IsComposed ∧ ∀ l ∈ x.links, l.compound.IsArranged := by
  fun_induction readSelectors cs generalizing selectors with
  | case1 => cases h
  | case2 cs links rest hl hr =>
    cases h
    exact ⟨List.cons_ne_nil _ _, List.forall_mem_singleton.2 (isComposed_of_readLinks hl)⟩
  | case3 => cases h
  | case4 cs links rest hl more selectors' hs hr hlt ih =>
    cases h
    exact ⟨List.cons_ne_nil _ _,
      List.forall_mem_cons.2 ⟨isComposed_of_readLinks hl, (ih hs).2⟩⟩
  | case5 => cases h

end Grammar

namespace SelectorList

/-- The parser of selectors gives what the grammar reads, at the position given. -/
lemma readSelectors_of_parse {text : String} {position : Position} {l : SelectorList}
    (h : SelectorList.parse text position = .ok l) :
    Grammar.readSelectors text.toList = .ok l.selectors ∧ l.position = position := by
  unfold parse at h
  dsimp only at h
  split at h
  · next hread =>
    cases h
    exact ⟨hread, rfl⟩
  · cases h

/-- Every list that is read from a text is composed. -/
theorem isComposed_of_parse {text : String} {position : Position} {l : SelectorList}
    (h : SelectorList.parse text position = .ok l) : l.IsComposed := by
  obtain ⟨hne, hall⟩ := Grammar.isComposed_of_readSelectors (readSelectors_of_parse h).1
  exact ⟨hne, fun x hx => (hall x hx).1⟩

/-- In a list that is read from a text all compounds are arranged. -/
theorem isArranged_of_parse {text : String} {position : Position} {l : SelectorList}
    (h : SelectorList.parse text position = .ok l) :
    ∀ x ∈ l.selectors, ∀ k ∈ x.links, k.compound.IsArranged :=
  fun x hx => ((Grammar.isComposed_of_readSelectors (readSelectors_of_parse h).1).2 x hx).2

/-- The shape of every list that is read from a text: there are selectors, which consist of compounds, which consist
of components. In a compound every `&` comes first, then one type or `*` at most, which begins with a letter behind
`&`. Names and values are whole runs of their characters, and arguments are trimmed and balanced. -/
theorem shape_of_parse {text : String} {position : Position} {l : SelectorList}
    (h : SelectorList.parse text position = .ok l) :
    l.position = position ∧ l.selectors ≠ [] ∧ ∀ x ∈ l.selectors, x.links ≠ [] ∧ ∀ k ∈ x.links,
      k.compound.components ≠ [] ∧ k.compound.IsArranged ∧ ∀ s ∈ k.compound.components, s.IsSpelled := by
  have hcomposed := isComposed_of_parse h
  refine ⟨(readSelectors_of_parse h).2, hcomposed.nonempty, fun x hx => ?_⟩
  refine ⟨(hcomposed.selectors x hx).nonempty, fun k hk => ?_⟩
  have hcompound := (hcomposed.selectors x hx).compounds k hk
  exact ⟨hcompound.nonempty, isArranged_of_parse h x hx k hk, hcompound.isSpelled⟩

/-- A list with each kind of component, a leading combinator, blanks and quotes of the other kind. -/
theorem shape_of_parse_mixed : ∃ l : SelectorList,
    SelectorList.parse " > &&h1.a\\.b[ x |= 'p\"q' ] *:not( (a) b ),%é::part(c) ~ #-1 " ⟨2, 3⟩ = .ok l ∧
    l.selectors.map (·.links.length) = [2, 2] ∧ l.position = ⟨2, 3⟩ ∧
    ∀ x ∈ l.selectors, ∀ k ∈ x.links, k.compound.IsArranged ∧ ∀ s ∈ k.compound.components, s.IsSpelled := by
  obtain ⟨l, hparse, hlength⟩ : ∃ l,
      SelectorList.parse " > &&h1.a\\.b[ x |= 'p\"q' ] *:not( (a) b ),%é::part(c) ~ #-1 " ⟨2, 3⟩ = .ok l ∧
        l.selectors.map (·.links.length) = [2, 2] :=
    exists_of_any_toOption (by decide +kernel)
  obtain ⟨hposition, -, hselectors⟩ := shape_of_parse hparse
  exact ⟨l, hparse, hlength, hposition, fun x hx k hk => ((hselectors x hx).2 k hk).2⟩

end SelectorList

end ScssExtend
