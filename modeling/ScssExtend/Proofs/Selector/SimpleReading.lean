import ScssExtend.Proofs.Selector.Spelling

/-!
# Simple selectors are read from their text

A component ends where the text goes on with none of the characters that could continue it (`EndsSimple`).
With such a continuation the text of a spelled component is read as `Simple.reread` says (`readFirst_text`),
unless its value vanishes (`readFirst_text_error`). Types are read as one name (`readFirst_type`), and `&`
only when no suffix follows (`readFirst_parent`).
-/

namespace ScssExtend.Grammar

open Text Simple

/-- What follows cannot belong to the simple selector before it. -/
def EndsSimple (rest : List Char) : Prop :=
  ∀ c ∈ rest.head?, isIdentChar c = false ∧ c ≠ '\\' ∧ c ≠ '('

/-- Reads the simple selector at the beginning of a text, if one stands there. -/
def readFirst : List Char → Except Mistake (Option (Simple × List Char))
  | [] => .ok none
  | c :: cs => readSimple c cs

/-- What ends a simple selector ends a name. -/
lemma EndsSimple.endsName {rest : List Char} (h : EndsSimple rest) : EndsName rest :=
  fun c hc => ⟨(h c hc).1, (h c hc).2.1⟩

/-! ## Names and attributes -/

/-- A name is read as it is written, up to what ends it. -/
lemma readName_text {name : String} {rest : List Char} (h : IsName name.toList) (hrest : EndsName rest)
    (kind : NameKind) : readName kind (name.toList ++ rest) = .ok (name, rest) := by
  rw [readName_append h hrest, String.ofList_toList]

/-- Identifier characters are a run without escapes. -/
lemma escapedRun_of_all {cs : List Char} (h : ∀ c ∈ cs, isIdentChar c) : EscapedRun isIdentChar cs := by
  induction cs with
  | nil => exact .nil
  | cons c cs ih =>
    have hc := h c List.mem_cons_self
    refine .plain hc ?_ (ih fun d hd => h d (List.mem_cons_of_mem c hd))
    intro heq
    subst heq
    exact absurd hc (by decide)

/-- An identifier has identifier characters only. -/
lemma isIdentChar_of_isIdentifier {cs : List Char} (h : isIdentifier cs) :
    ∀ c ∈ cs, isIdentChar c := by
  have hbody {body : List Char} (h : (match body with
      | [] => false
      | c :: rest => (isIdentStart c || c = '-') && rest.all isIdentChar) = true) :
      ∀ c ∈ body, isIdentChar c := by
    cases body with
    | nil => cases h
    | cons c rest =>
      obtain ⟨hc, hrest⟩ := Bool.and_eq_true_iff.1 h
      intro d hd
      obtain rfl | hd := List.mem_cons.1 hd
      · obtain hc | hc := Bool.or_eq_true_iff.1 hc
        · exact isIdentChar_of_isIdentStart hc
        · rw [of_decide_eq_true hc]
          decide
      · exact List.all_eq_true.1 hrest d hd
  unfold isIdentifier at h
  split at h
  · next rest =>
    intro c hc
    obtain rfl | hc := List.mem_cons.1 hc
    · decide
    · exact hbody h c hc
  · exact hbody h

/-- An operator is read as it is written. -/
lemma readOperator_text (operator : AttributeOperator) (rest : List Char) :
    readOperator (operator.text.toList ++ rest) = .ok (some operator, rest) := by
  cases operator <;> rfl

/-- An operator is no blank and ends the name in front of it. -/
lemma beginsNonblank_operator (operator : AttributeOperator) (rest : List Char) :
    BeginsNonblank (operator.text.toList ++ rest) ∧ EndsName (operator.text.toList ++ rest) := by
  constructor <;> intro c hc <;> cases operator <;> cases hc <;> decide

/-- A bare value is read as the name that it is. -/
lemma readValue_name {cs rest : List Char} (h : IsName cs) (hrest : EndsName rest) :
    readValue (cs ++ rest) = .ok (String.ofList cs, rest) := by
  obtain ⟨c, cs, rfl⟩ := List.exists_cons_of_ne_nil h.1
  have hc : ¬(c = '"' ∨ c = '\'') :=
    not_or.2 ⟨h.head_ne (by decide), h.head_ne (by decide)⟩
  rw [List.cons_append, readValue, if_neg hc, ← List.cons_append]
  exact readName_append h hrest _

/-- A bracket ends a name. -/
lemma endsName_bracket (rest : List Char) : EndsName (']' :: rest) := by
  intro c hc
  cases hc
  decide

/-- The value of an attribute selector is read up to the bracket behind it. -/
lemma readValue_text {value : String} {rest : List Char}
    (hrun : EscapedRun (fun _ => true) value.toList)
    (hr : isIdentifier value.toList → ∃ c ∈ value.toList, isBlank c = false) :
    readValue (skipBlanks ((valueText value).toList ++ ']' :: rest)) =
      .ok (String.ofList (rereadValue value.toList), ']' :: rest) := by
  unfold valueText rereadValue
  split
  · next hid =>
    obtain ⟨c, hc, hblank⟩ := hr hid
    have hne : skipBlanks value.toList ≠ [] := by
      intro hnil
      rw [List.dropWhile_eq_nil_iff.1 hnil c hc] at hblank
      cases hblank
    -- a blank at the beginning of a bare value counts as white space before it
    have hskip : skipBlanks (value.toList ++ ']' :: rest) = skipBlanks value.toList ++ ']' :: rest := by
      unfold skipBlanks at hne ⊢
      rw [List.dropWhile_append, if_neg (by simpa using hne)]
    have hrun : EscapedRun isIdentChar (skipBlanks value.toList) := escapedRun_of_all fun c hc =>
      isIdentChar_of_isIdentifier hid c ((List.dropWhile_suffix _).subset hc)
    rw [hskip]
    exact readValue_name ⟨hne, hrun⟩ (endsName_bracket rest)
  · rw [String.toList_ofList, List.cons_append, List.append_assoc, List.singleton_append,
      skipBlanks_eq_self (by intro c hc; cases hc; decide), readValue, if_pos (.inl rfl),
      spanQuoted_append (escapedRun_quoteBody hrun) (by decide)]

/-- A bare value of blank characters is skipped, and no value is found. -/
lemma readValue_text_error {value : String} (rest : List Char) (hid : isIdentifier value.toList)
    (hblank : ∀ c ∈ value.toList, isBlank c) :
    readValue (skipBlanks ((valueText value).toList ++ ']' :: rest)) =
      .error ⟨.nameExpected .attributeValue, ']' :: rest⟩ := by
  have hskip : skipBlanks (value.toList ++ ']' :: rest) = ']' :: rest := by
    unfold skipBlanks
    rw [List.dropWhile_append_of_pos hblank]
    rfl
  rw [valueText, if_pos hid, hskip]
  exact readName_of_endsName (endsName_bracket rest) _

/-- A readable attribute selector is read behind its opening bracket, as it is read again. -/
lemma readAttribute_text {name : String} {matcher : Option AttributeMatch} {rest : List Char}
    (hs : (attr name matcher).IsSpelled) (hr : (attr name matcher).IsReadable) :
    readAttribute (name.toList ++ ((matcherText matcher).toList ++ ']' :: rest)) =
      .ok ((attr name matcher).reread, rest) := by
  obtain ⟨hname, hbegin, hvalue⟩ := hs
  rw [readAttribute, skipBlanks_eq_self (hbegin.append hname.1 _)]
  cases matcher with
  | none =>
    have hend := endsName_bracket rest
    simp only [matcherText, String.toList_empty, List.nil_append, readName_text hname hend]
    rfl
  | some m =>
    obtain ⟨hblank, hend⟩ := beginsNonblank_operator m.operator ((valueText m.value).toList ++ ']' :: rest)
    simp only [matcherText, String.toList_append, List.append_assoc]
    rw [readName_text hname hend]
    dsimp only [bind, Except.bind]
    rw [skipBlanks_eq_self hblank, readOperator_text]
    dsimp only
    rw [readValue_text (hvalue m rfl) (hr m rfl)]
    rfl

/-- An attribute selector whose value vanishes is a mistake. -/
lemma readAttribute_text_error {name : String} {matcher : Option AttributeMatch} (rest : List Char)
    (hs : (attr name matcher).IsSpelled) (hr : ¬(attr name matcher).IsReadable) :
    ∃ mistake, readAttribute (name.toList ++ ((matcherText matcher).toList ++ ']' :: rest)) =
      .error mistake := by
  obtain ⟨hname, hbegin, hvalue⟩ := hs
  cases matcher with
  | none => exact absurd (fun m hm => absurd hm (by simp [matcher?])) hr
  | some m =>
    have hvanish : isIdentifier m.value.toList ∧ ∀ c ∈ m.value.toList, isBlank c := by
      simpa [IsReadable, matcher?] using hr
    obtain ⟨hblank, hend⟩ := beginsNonblank_operator m.operator ((valueText m.value).toList ++ ']' :: rest)
    rw [readAttribute, skipBlanks_eq_self (hbegin.append hname.1 _)]
    simp only [matcherText, String.toList_append, List.append_assoc]
    rw [readName_text hname hend]
    dsimp only [bind, Except.bind]
    rw [skipBlanks_eq_self hblank, readOperator_text]
    dsimp only
    rw [readValue_text_error rest hvanish.1 hvanish.2]
    exact ⟨_, rfl⟩

/-! ## Pseudo-classes and pseudo-elements -/

/-- An argument is read as it is written, and none where there is none. -/
lemma readArgument_text {argument : Option String} {rest : List Char}
    (h : ∀ a ∈ argument, IsBalanced a.toList ∧ IsTrimmed a.toList) (hrest : EndsSimple rest) :
    readArgument ((argumentText argument).toList ++ rest) = .ok (argument, rest) := by
  cases argument with
  | none =>
    change readArgument rest = _
    unfold readArgument
    split
    · exact absurd rfl (hrest '(' rfl).2.2
    · rfl
  | some a =>
    obtain ⟨hbalanced, htrimmed⟩ := h a rfl
    have htext : (argumentText (some a)).toList ++ rest = '(' :: (a.toList ++ ')' :: rest) := by
      simp [argumentText]
    rw [htext, readArgument, spanArgument_append hbalanced]
    dsimp only
    rw [trim_eq_self htrimmed, String.ofList_toList]

/-- The parenthesis of an argument ends the name in front of it. -/
lemma endsName_argument {argument : Option String} {rest : List Char} (hrest : EndsSimple rest) :
    EndsName ((argumentText argument).toList ++ rest) := by
  cases argument with
  | none => exact hrest.endsName
  | some a =>
    intro c hc
    simp only [argumentText, String.toList_append, List.append_assoc] at hc
    cases hc
    decide

/-- A pseudo-class is read behind its colon. -/
lemma readPseudo_class {name : String} {argument : Option String} {rest : List Char}
    (hs : (pseudoClass name argument).IsSpelled) (hrest : EndsSimple rest) :
    readPseudo (name.toList ++ ((argumentText argument).toList ++ rest)) =
      .ok (pseudoClass name argument, rest) := by
  obtain ⟨hname, hargument⟩ := hs
  have hread := readName_text hname (@endsName_argument argument rest hrest) .pseudoClass
  obtain ⟨c, ds, hcons⟩ := List.exists_cons_of_ne_nil hname.1
  have hc : c ≠ ':' := by
    rw [hcons] at hname
    exact hname.head_ne (by decide)
  rw [hcons, List.cons_append] at hread ⊢
  unfold readPseudo
  split
  next make cs heq =>
    -- the text does not begin with a second colon
    split at heq
    · next h =>
      cases h
      exact absurd rfl hc
    · cases heq
      simp only [hread, bind, Except.bind, readArgument_text hargument hrest]
      rfl

/-- A pseudo-element is read behind its second colon. -/
lemma readPseudo_element {name : String} {argument : Option String} {rest : List Char}
    (hs : (pseudoElement name argument).IsSpelled) (hrest : EndsSimple rest) :
    readPseudo (':' :: (name.toList ++ ((argumentText argument).toList ++ rest))) =
      .ok (pseudoElement name argument, rest) := by
  obtain ⟨hname, hargument⟩ := hs
  simp only [readPseudo, readName_text hname (endsName_argument hrest), bind, Except.bind,
    readArgument_text hargument hrest]
  rfl

/-! ## Simple selectors -/

/-- A component other than `&`, `*` and types is read again from its text. -/
lemma readFirst_text {s : Simple} {rest : List Char} (hs : s.IsSpelled) (hr : s.IsReadable)
    (hlead : s.isTypeLike = false) (hrest : EndsSimple rest) :
    readFirst (s.text.toList ++ rest) = .ok (some (s.reread, rest)) := by
  cases s with
  | parent | universal | type _ => cases hlead
  | id name =>
    simp only [text, String.toList_append, List.append_assoc]
    change readSimple '#' (name.toList ++ rest) = _
    simp only [readSimple, readName_text hs hrest.endsName]
    rfl
  | className name =>
    simp only [text, String.toList_append, List.append_assoc]
    change readSimple '.' (name.toList ++ rest) = _
    simp only [readSimple, readName_text hs hrest.endsName]
    rfl
  | placeholder name =>
    simp only [text, String.toList_append, List.append_assoc]
    change readSimple '%' (name.toList ++ rest) = _
    simp only [readSimple, readName_text hs hrest.endsName]
    rfl
  | attr name matcher =>
    simp only [text, String.toList_append, List.append_assoc]
    change some <$> readAttribute (name.toList ++ ((matcherText matcher).toList ++ ']' :: rest)) = _
    rw [readAttribute_text hs hr]
    rfl
  | pseudoClass name argument =>
    simp only [text, String.toList_append, List.append_assoc]
    change some <$> readPseudo (name.toList ++ ((argumentText argument).toList ++ rest)) = _
    rw [readPseudo_class hs hrest]
    rfl
  | pseudoElement name argument =>
    simp only [text, String.toList_append, List.append_assoc]
    change some <$> readPseudo (':' :: (name.toList ++ ((argumentText argument).toList ++ rest))) = _
    rw [readPseudo_element hs hrest]
    rfl

/-- A component that is not readable is a mistake. -/
lemma readFirst_text_error {s : Simple} (rest : List Char) (hs : s.IsSpelled) (hr : ¬s.IsReadable) :
    ∃ mistake, readFirst (s.text.toList ++ rest) = .error mistake := by
  cases s with
  | attr name matcher =>
    obtain ⟨mistake, h⟩ := readAttribute_text_error rest hs hr
    refine ⟨mistake, ?_⟩
    simp only [text, String.toList_append, List.append_assoc]
    change some <$> readAttribute (name.toList ++ ((matcherText matcher).toList ++ ']' :: rest)) = _
    rw [h]
    rfl
  | _ => exact absurd (fun m hm => absurd hm (by simp [matcher?])) hr

/-- A `&` is read where no name follows. -/
lemma readFirst_parent {rest : List Char} (h : rest.head?.any isSuffixStart = false) :
    readFirst ('&' :: rest) = .ok (some (.parent, rest)) := by
  rw [readFirst, readSimple, h]
  rfl

/-- A `&` in front of a name is a mistake. -/
lemma readFirst_parent_error {rest : List Char} (h : rest.head?.any isSuffixStart) :
    readFirst ('&' :: rest) = .error ⟨.parentSuffix, rest⟩ := by
  rw [readFirst, readSimple, if_pos h]

/-- A name that does not begin with a digit is read as a type. -/
lemma readFirst_type {cs rest : List Char} (h : IsName cs) (hdigit : ∀ c ∈ cs.head?, c.isDigit = false)
    (hrest : EndsName rest) : readFirst (cs ++ rest) = .ok (some (.type (String.ofList cs), rest)) := by
  have hread := readName_append h hrest .typeSelector
  obtain ⟨c, cs, rfl⟩ := List.exists_cons_of_ne_nil h.1
  have hstart : (isIdentStart c || c = '-' || c = '\\') = true := by
    have := hdigit c rfl
    obtain hc | rfl := h.head
    · simp_all [isIdentChar]
    · decide
  rw [List.cons_append, readFirst, readSimple.eq_def]
  -- no name begins with a character that introduces another kind of component
  split
  · exact absurd rfl (h.head_ne (by decide))
  · exact absurd rfl (h.head_ne (by decide))
  · exact absurd rfl (h.head_ne (by decide))
  · exact absurd rfl (h.head_ne (by decide))
  · exact absurd rfl (h.head_ne (by decide))
  · exact absurd rfl (h.head_ne (by decide))
  · exact absurd rfl (h.head_ne (by decide))
  · rw [if_pos hstart, ← List.cons_append, hread]
    rfl

end ScssExtend.Grammar
