import ScssExtend.ParseError
import ScssExtend.Selector.List
import ScssExtend.Text.Trim

/-!
# Reading selectors

A reader takes something off the beginning of a text and returns it with the rest, or fails with a `Mistake`,
which holds the text that was left when the fault was found. Every successful reader takes at least one
character (the `_length` lemmas), so the lists of components, links and selectors are read by recursion on the
length of the text. `SelectorList.parse` reads a whole text.
-/

namespace ScssExtend

/-- A fault, and the text that was left when it was found. -/
structure Mistake where
  fault : SelectorFault
  rest : List Char

/-- The result of a reader: what was read and the rest of the text, or a mistake. -/
abbrev Reading (α : Type) : Type :=
  Except Mistake (α × List Char)

namespace Grammar

open Text

/-- The text without the blank characters at its beginning. -/
def skipBlanks (cs : List Char) : List Char :=
  cs.dropWhile isBlank

/-- Reads a name: identifier characters, and backslashes with any character behind them. -/
def readName (kind : NameKind) (cs : List Char) : Reading String :=
  match spanName (fun _ => true) cs with
  | ([], rest) => .error ⟨.nameExpected kind, rest⟩
  | (name, rest) => .ok (String.ofList name, rest)

/-! ## Attribute selectors -/

/-- The operator that a character begins, if a `=` follows. -/
def operator? : Char → Option AttributeOperator
  | '~' => some .includes
  | '|' => some .dashMatch
  | '^' => some .prefixMatch
  | '$' => some .suffixMatch
  | '*' => some .substringMatch
  | _ => none

/-- Reads the operator behind an attribute's name; the closing bracket stands for no operator. -/
def readOperator : List Char → Reading (Option AttributeOperator)
  | [] => .error ⟨.malformedAttribute, []⟩
  | ']' :: rest => .ok (none, rest)
  | '=' :: rest => .ok (some .equals, rest)
  | c :: rest =>
    match operator? c, rest with
    | some operator, '=' :: rest => .ok (some operator, rest)
    | some _, rest => .error ⟨.equalsExpected c, rest.drop 1⟩
    | none, rest => .error ⟨.malformedAttribute, rest⟩

/-- The text up to the closing quote, its escapes kept as written, and what follows that quote. -/
def spanQuoted (quote : Char) : List Char → Option (List Char × List Char)
  | [] => none
  | c :: cs =>
    if c = quote then some ([], cs)
    else if c = '\\' then
      match cs with
      | [] => none
      | d :: ds => (spanQuoted quote ds).map fun (value, rest) => (c :: d :: value, rest)
    else (spanQuoted quote cs).map fun (value, rest) => (c :: value, rest)

/-- Reads an attribute's value: a quoted string or a name. -/
def readValue : List Char → Reading String
  | [] => readName .attributeValue []
  | c :: cs =>
    if c = '"' ∨ c = '\'' then
      match spanQuoted c cs with
      | some (value, rest) => .ok (String.ofList value, rest)
      | none => .error ⟨.unterminatedString, []⟩
    else readName .attributeValue (c :: cs)

/-- Reads the bracket that closes an attribute selector. -/
def readBracket : List Char → Reading Unit
  | ']' :: rest => .ok ((), rest)
  | cs => .error ⟨.bracketExpected, cs.drop 1⟩

/-- Reads an attribute selector behind its opening bracket. -/
def readAttribute (cs : List Char) : Except Mistake (Simple × List Char) := do
  let (name, cs) ← readName .attributeName (skipBlanks cs)
  let (operator, cs) ← readOperator (skipBlanks cs)
  match operator with
  | none => return (.attr name none, cs)
  | some operator =>
    let (value, cs) ← readValue (skipBlanks cs)
    let (_, cs) ← readBracket (skipBlanks cs)
    return (.attr name (some ⟨operator, value⟩), cs)

/-! ## Pseudo-classes and pseudo-elements -/

/-- The text up to the parenthesis that closes `depth` open ones and one more, and what follows it. -/
def spanArgument (depth : Nat) : List Char → Option (List Char × List Char)
  | [] => none
  | c :: cs =>
    if c = ')' then
      match depth with
      | 0 => some ([], cs)
      | depth + 1 => (spanArgument depth cs).map fun (argument, rest) => (c :: argument, rest)
    else if c = '(' then
      (spanArgument (depth + 1) cs).map fun (argument, rest) => (c :: argument, rest)
    else (spanArgument depth cs).map fun (argument, rest) => (c :: argument, rest)

/-- Reads the parenthesised argument that may follow a name. -/
def readArgument : List Char → Reading (Option String)
  | '(' :: cs =>
    match spanArgument 0 cs with
    | some (argument, rest) => .ok (some (String.ofList (trim argument)), rest)
    | none => .error ⟨.unbalancedParentheses, []⟩
  | cs => .ok (none, cs)

/-- Reads a pseudo-class or, behind a second colon, a pseudo-element, the first colon being read. -/
def readPseudo (cs : List Char) : Except Mistake (Simple × List Char) := do
  let (make, cs) := match cs with
    | ':' :: cs => (Simple.pseudoElement, cs)
    | cs => (Simple.pseudoClass, cs)
  let (name, cs) ← readName .pseudoClass cs
  let (argument, cs) ← readArgument cs
  return (make name argument, cs)

/-! ## Simple and compound selectors -/

/-- True of a character that makes a suffix out of what stands behind `&`. Letters begin a type. -/
def isSuffixStart (c : Char) : Bool :=
  (isIdentChar c && !c.isAlpha) || c = '\\'

/-- Reads the simple selector that begins with the character `c`, if one does. -/
def readSimple (c : Char) (cs : List Char) : Except Mistake (Option (Simple × List Char)) :=
  match c with
  | '&' => if cs.head?.any isSuffixStart then .error ⟨.parentSuffix, cs⟩ else .ok (some (.parent, cs))
  | '*' => .ok (some (.universal, cs))
  | '.' => do
    let (name, cs) ← readName .className cs
    return some (.className name, cs)
  | '#' => do
    let (name, cs) ← readName .id cs
    return some (.id name, cs)
  | '%' => do
    let (name, cs) ← readName .placeholder cs
    return some (.placeholder name, cs)
  | '[' => some <$> readAttribute cs
  | ':' => some <$> readPseudo cs
  | c =>
    if isIdentStart c || c = '-' || c = '\\' then do
      let (name, cs) ← readName .typeSelector (c :: cs)
      return some (.type name, cs)
    else .ok none

/-! ## What is read is taken off the text -/

/-- Skipping blanks leaves at most the text. -/
theorem skipBlanks_length (cs : List Char) : (skipBlanks cs).length ≤ cs.length :=
  (List.dropWhile_suffix _).length_le

/-- A name takes at least one character. -/
theorem readName_length {kind : NameKind} {cs rest : List Char} {name : String}
    (h : readName kind cs = .ok (name, rest)) : rest.length < cs.length := by
  have ha := congrArg List.length (spanName_append (fun _ => true) cs)
  unfold readName at h
  split at h
  · cases h
  · next chars rest' hne heq =>
    cases h
    simp only [heq, List.length_append] at ha
    have : 0 < chars.length := List.length_pos_iff.2 fun hn => hne hn
    omega

/-- An operator takes at least one character. -/
theorem readOperator_length {cs rest : List Char} {operator : Option AttributeOperator}
    (h : readOperator cs = .ok (operator, rest)) : rest.length < cs.length := by
  unfold readOperator at h
  split at h
  · cases h
  · cases h
    simp
  · cases h
    simp
  · split at h <;> cases h
    simp only [List.length_cons]
    omega

/-- A quoted value takes at least its closing quote. -/
theorem spanQuoted_length {quote : Char} {cs value rest : List Char}
    (h : spanQuoted quote cs = some (value, rest)) : rest.length < cs.length := by
  fun_induction spanQuoted quote cs generalizing value with
  | case1 => cases h
  | case2 => cases h; simp
  | case3 => cases h
  | case4 d ds _ ih =>
    obtain ⟨p, hp, heq⟩ := Option.map_eq_some_iff.1 h
    cases heq
    have := ih hp
    simp only [List.length_cons]
    omega
  | case5 c cs _ _ ih =>
    obtain ⟨p, hp, heq⟩ := Option.map_eq_some_iff.1 h
    cases heq
    have := ih hp
    simp only [List.length_cons]
    omega

/-- A value takes at least one character. -/
theorem readValue_length {cs rest : List Char} {value : String}
    (h : readValue cs = .ok (value, rest)) : rest.length < cs.length := by
  unfold readValue at h
  split at h
  · exact readName_length h
  · split at h
    · split at h
      · next heq =>
        cases h
        have := spanQuoted_length heq
        simp only [List.length_cons]
        omega
      · cases h
    · exact readName_length h

/-- The closing bracket takes one character. -/
theorem readBracket_length {cs rest : List Char} {u : Unit} (h : readBracket cs = .ok (u, rest)) :
    rest.length < cs.length := by
  unfold readBracket at h
  split at h
  · cases h
    simp
  · cases h

/-- A sequence of two steps succeeds when the second one does on the outcome of the first. -/
theorem bind_eq_ok {ε α β : Type} {x : Except ε α} {f : α → Except ε β} {b : β} :
    x >>= f = .ok b ↔ ∃ a, x = .ok a ∧ f a = .ok b := by
  cases x <;> simp [bind, Except.bind]

/-- It fails when the first step does, or the second one on the outcome of the first. -/
theorem bind_eq_error {ε α β : Type} {x : Except ε α} {f : α → Except ε β} {e : ε} :
    x >>= f = .error e ↔ x = .error e ∨ ∃ a, x = .ok a ∧ f a = .error e := by
  cases x <;> simp [bind, Except.bind]

/-- An attribute selector takes at least one character. -/
theorem readAttribute_length {cs rest : List Char} {s : Simple}
    (h : readAttribute cs = .ok (s, rest)) : rest.length < cs.length := by
  obtain ⟨⟨name, cs₁⟩, h₁, h⟩ := bind_eq_ok.1 h
  obtain ⟨⟨operator, cs₂⟩, h₂, h⟩ := bind_eq_ok.1 h
  have l₁ := readName_length h₁
  have l₂ := readOperator_length h₂
  have b₁ := skipBlanks_length cs
  have b₂ := skipBlanks_length cs₁
  cases operator with
  | none =>
    cases h
    omega
  | some operator =>
    obtain ⟨⟨value, cs₃⟩, h₃, h⟩ := bind_eq_ok.1 h
    obtain ⟨⟨_, cs₄⟩, h₄, h⟩ := bind_eq_ok.1 h
    have l₃ := readValue_length h₃
    have l₄ := readBracket_length h₄
    have b₃ := skipBlanks_length cs₂
    have b₄ := skipBlanks_length cs₃
    cases h
    omega

/-- An argument takes at least its closing parenthesis. -/
theorem spanArgument_length {depth : Nat} {cs argument rest : List Char}
    (h : spanArgument depth cs = some (argument, rest)) : rest.length < cs.length := by
  fun_induction spanArgument depth cs generalizing argument with
  | case1 => cases h
  | case2 => cases h; simp
  | case3 cs depth ih =>
    obtain ⟨p, hp, heq⟩ := Option.map_eq_some_iff.1 h
    cases heq
    have := ih hp
    simp only [List.length_cons]
    omega
  | case4 depth cs _ ih =>
    obtain ⟨p, hp, heq⟩ := Option.map_eq_some_iff.1 h
    cases heq
    have := ih hp
    simp only [List.length_cons]
    omega
  | case5 depth c cs _ _ ih =>
    obtain ⟨p, hp, heq⟩ := Option.map_eq_some_iff.1 h
    cases heq
    have := ih hp
    simp only [List.length_cons]
    omega

/-- An optional argument leaves at most the text. -/
theorem readArgument_length {cs rest : List Char} {argument : Option String}
    (h : readArgument cs = .ok (argument, rest)) : rest.length ≤ cs.length := by
  unfold readArgument at h
  split at h
  · split at h
    · next heq =>
      cases h
      have := spanArgument_length heq
      simp only [List.length_cons]
      omega
    · cases h
  · cases h
    exact Nat.le_refl _

/-- A pseudo-class or pseudo-element takes at least one character. -/
theorem readPseudo_length {cs rest : List Char} {s : Simple} (h : readPseudo cs = .ok (s, rest)) :
    rest.length < cs.length := by
  unfold readPseudo at h
  split at h
  all_goals
    obtain ⟨⟨name, cs₁⟩, h₁, h⟩ := bind_eq_ok.1 h
    obtain ⟨⟨argument, cs₂⟩, h₂, h⟩ := bind_eq_ok.1 h
    have l₁ := readName_length h₁
    have l₂ := readArgument_length h₂
    cases h
    grind

/-- A simple selector takes at least its first character. -/
theorem readSimple_length {c : Char} {cs rest : List Char} {s : Simple}
    (h : readSimple c cs = .ok (some (s, rest))) : rest.length < (c :: cs).length := by
  have named {kind : NameKind} {make : String → Simple} {ds : List Char}
      (hd : ds.length ≤ (c :: cs).length)
      (h : (do let (name, cs) ← readName kind ds; return some (make name, cs)) =
        (.ok (some (s, rest)) : Except Mistake _)) : rest.length < (c :: cs).length := by
    obtain ⟨⟨name, cs₁⟩, h₁, h⟩ := bind_eq_ok.1 h
    have := readName_length h₁
    cases h
    omega
  unfold readSimple at h
  split at h
  · split at h <;> cases h
    simp
  · cases h
    simp
  · exact named (by simp) h
  · exact named (by simp) h
  · exact named (by simp) h
  · cases hr : readAttribute cs with
    | error m =>
      rw [hr] at h
      cases h
    | ok p =>
      rw [hr] at h
      cases h
      have := readAttribute_length hr
      simp only [List.length_cons]
      omega
  · cases hr : readPseudo cs with
    | error m =>
      rw [hr] at h
      cases h
    | ok p =>
      rw [hr] at h
      cases h
      have := readPseudo_length hr
      simp only [List.length_cons]
      omega
  · split at h
    · exact named (Nat.le_refl _) h
    · cases h

/-! ## Compounds -/

/-- Reads the components that follow `sofar` in one compound. A component that has to stand in front may only
follow `&`. -/
def readComponents (sofar : List Simple) : List Char → Reading (List Simple)
  | [] => .ok (sofar, [])
  | c :: cs =>
    match h : readSimple c cs with
    | .error mistake => .error mistake
    | .ok none => .ok (sofar, c :: cs)
    | .ok (some (s, rest)) =>
      have := readSimple_length h
      if s.isTypeLike && sofar.any (· != .parent) then .error ⟨.mustComeFirst s, rest⟩
      else readComponents (sofar ++ [s]) rest
  termination_by cs => cs.length
  decreasing_by exact this

/-- Each further component takes at least one character. -/
theorem readComponents_length {sofar components : List Simple} {cs rest : List Char}
    (h : readComponents sofar cs = .ok (components, rest)) :
    rest.length + components.length ≤ cs.length + sofar.length := by
  fun_induction readComponents sofar cs with
  | case1 => cases h; exact Nat.le_refl _
  | case2 => cases h
  | case3 => cases h; exact Nat.le_refl _
  | case4 => cases h
  | case5 sofar c cs s rest' _ hl _ ih =>
    have := ih h
    simp only [List.length_append, List.length_cons, List.length_nil] at this hl ⊢
    omega

/-! ## Chains of links -/

/-- The combinator that a character stands for, and the text behind it. -/
def readCombinator : List Char → Option (Combinator × List Char)
  | '>' :: cs => some (.child, cs)
  | '+' :: cs => some (.nextSibling, cs)
  | '~' :: cs => some (.subsequentSibling, cs)
  | _ => none

/-- The combinator behind a compound, `none` at the end of the chain, and the rest of the text. White space is
a combinator when another compound has to follow it. -/
def readJoint (cs : List Char) : Option Combinator × List Char :=
  let behind := skipBlanks cs
  match readCombinator behind with
  | some (combinator, rest) => (some combinator, rest)
  | none =>
    if behind.length < cs.length && behind.head?.any (· ≠ ',') then (some .descendant, behind)
    else (none, behind)

/-- A written combinator takes one character. -/
theorem readCombinator_length {cs rest : List Char} {combinator : Combinator}
    (h : readCombinator cs = some (combinator, rest)) : rest.length < cs.length := by
  unfold readCombinator at h
  split at h <;> cases h <;> simp

/-- What joins two compounds leaves at most the text. -/
theorem readJoint_length {cs rest : List Char} {joint : Option Combinator}
    (h : readJoint cs = (joint, rest)) : rest.length ≤ cs.length := by
  have hb := skipBlanks_length cs
  unfold readJoint at h
  dsimp only at h
  split at h
  · next heq =>
    have := readCombinator_length heq
    cases h
    omega
  · split at h <;> cases h <;> exact hb

/-- Reads the links of a chain, of which the first one is led by `combinator`. -/
def readLinks (combinator : Combinator) (cs : List Char) : Reading (List Link) :=
  match h : readComponents [] (skipBlanks cs) with
  | .error mistake => .error mistake
  | .ok ([], rest) => .error ⟨.selectorExpected rest.head?, rest⟩
  | .ok (s :: ss, rest) =>
    match hj : readJoint rest with
    | (none, rest) => .ok ([⟨combinator, ⟨s :: ss⟩⟩], rest)
    | (some next, rest') =>
      have : rest'.length < cs.length := by
        have := readComponents_length h
        have := readJoint_length hj
        have := skipBlanks_length cs
        simp only [List.length_cons, List.length_nil] at *
        omega
      match readLinks next rest' with
      | .error mistake => .error mistake
      | .ok (links, rest) => .ok (⟨combinator, ⟨s :: ss⟩⟩ :: links, rest)
  termination_by cs.length
  decreasing_by exact this

/-- A chain takes at least one character. -/
theorem readLinks_length {combinator : Combinator} {cs rest : List Char} {links : List Link}
    (h : readLinks combinator cs = .ok (links, rest)) : rest.length < cs.length := by
  fun_induction readLinks combinator cs generalizing links with
  | case1 => cases h
  | case2 => cases h
  | case3 combinator cs s ss rest₁ hc rest₂ hj =>
    cases h
    have := readComponents_length hc
    have := readJoint_length hj
    have := skipBlanks_length cs
    simp only [List.length_cons, List.length_nil] at *
    omega
  | case4 => cases h
  | case5 combinator cs s ss rest₁ hc next rest₂ hj hlt links' rest₃ hl ih =>
    cases h
    have := ih hl
    omega

/-! ## Selector lists -/

/-- The combinator that leads a selector, `descendant` where none is written, and the rest of the text. -/
def readLead (cs : List Char) : Combinator × List Char :=
  (readCombinator (skipBlanks cs)).getD (.descendant, skipBlanks cs)

/-- A leading combinator leaves at most the text. -/
theorem readLead_length (cs : List Char) : (readLead cs).2.length ≤ cs.length := by
  have := skipBlanks_length cs
  unfold readLead
  cases hc : readCombinator (skipBlanks cs) with
  | none => exact this
  | some p =>
    have := readCombinator_length hc
    simp only [Option.getD_some]
    omega

/-- Reads the selectors of a whole text, with a comma between two of them. A selector may begin with a
combinator. -/
def readSelectors (cs : List Char) : Except Mistake (List Complex) :=
  match h : readLinks (readLead cs).1 (readLead cs).2 with
  | .error mistake => .error mistake
  | .ok (links, rest) =>
    match hr : skipBlanks rest with
    | [] => .ok [⟨links⟩]
    | c :: more =>
      if c = ',' then
        have : more.length < cs.length := by
          have := readLead_length cs
          have := readLinks_length h
          have := skipBlanks_length rest
          simp only [hr, List.length_cons] at *
          omega
        match readSelectors more with
        | .error mistake => .error mistake
        | .ok selectors => .ok (⟨links⟩ :: selectors)
      else .error ⟨.unexpected c, more⟩
  termination_by cs.length
  decreasing_by exact this

end Grammar

/-- Reads a whole text as a selector list. `position` is the place where the text starts; it becomes the place
of the list, and the place of a mistake is counted from it. -/
def SelectorList.parse (text : String) (position : Position) : Except ParseError SelectorList :=
  let cs := text.toList
  match Grammar.readSelectors cs with
  | .ok selectors => .ok ⟨selectors, position⟩
  | .error ⟨fault, rest⟩ =>
    .error (.invalidSelector text fault (position.advanceOver (cs.take (cs.length - rest.length))))

end ScssExtend
