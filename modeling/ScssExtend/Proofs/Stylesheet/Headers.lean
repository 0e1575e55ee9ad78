import ScssExtend.Proofs.Stylesheet.Settled

/-!
# Selectors whose texts are settled

A name is plain when it is an identifier that begins with no escape (`Lexer.isPlainName`). In a plain selector all names
are, values are identifiers or need no escapes, and arguments are written with tokens of their own (`Simple.IsPlain`).
The text of such a selector is spelled with the tokens of its components (`Lexer.Spells`), component by component, so it
is settled (`SelectorList.isSettledHeader_text`).
-/

namespace ScssExtend

namespace Lexer

open Text Prelude Grammar

/-! ## Plain names -/

/-- The text is an identifier that begins with no escape, and nothing else. -/
def isPlainName (name : String) : Bool :=
  match name.toList with
  | [] => false
  | c :: cs => c ≠ '\\' && startsIdent (c :: cs) && (spanName nameEscape (c :: cs)).2.isEmpty

section PlainName

variable {name : String} (h : isPlainName name)
include h

/-- A plain name begins with a character of its own that starts an identifier, and is taken whole. -/
lemma exists_cons_of_isPlainName : ∃ c cs, name.toList = c :: cs ∧ c ≠ '\\' ∧ startsIdent (c :: cs) ∧
    spanName nameEscape (c :: cs) = (c :: cs, []) := by
  unfold isPlainName at h
  split at h
  · cases h
  · next c cs heq =>
    simp only [Bool.and_eq_true, decide_eq_true_eq, List.isEmpty_iff] at h
    obtain ⟨⟨hc, hstart⟩, hrest⟩ := h
    have happ := spanName_append nameEscape (c :: cs)
    rw [hrest, List.append_nil] at happ
    exact ⟨c, cs, heq, hc, hstart, Prod.ext happ hrest⟩

/-- A plain name starts an identifier whatever follows. -/
lemma startsIdent_of_isPlainName (behind : List Char) : startsIdent (name.toList ++ behind) := by
  obtain ⟨c, cs, heq, -, hstart, -⟩ := exists_cons_of_isPlainName h
  rw [heq]
  cases cs with
  | nil =>
    rw [startsIdent_cons] at hstart
    rw [List.cons_append, startsIdent_cons]
    split at hstart
    · cases hstart
    · next hdash =>
      split at hstart
      · cases hstart
      · next hslash => rwa [if_neg hdash, if_neg hslash]
  | cons d cs =>
    have hsame : startsIdent (c :: d :: (cs ++ behind)) = startsIdent (c :: d :: cs) := startsIdent_congr c rfl
    exact hsame.trans hstart

/-- A plain name is a token, and so it is with a mark in front of it. -/
lemma isRead_ident : IsRead (.ident name) := by
  obtain ⟨c, cs, heq, hc, hstart, hspan⟩ := exists_cons_of_isPlainName h
  refine ⟨c, cs, ?_⟩
  rw [readToken_eq_iff.2 (.ident hc hstart hspan (by simp)), ← heq, String.ofList_toList]

/-- A plain name begins with an identifier character. -/
lemma isIdentChar_head_of_isPlainName : name.toList.head?.any isIdentChar := by
  obtain ⟨c, cs, heq, hc, hstart, -⟩ := exists_cons_of_isPlainName h
  rw [heq]
  obtain hc' | rfl | hslash := head_of_startsIdent hstart
  · exact isIdentChar_of_isIdentStart hc'
  · rfl
  · exact absurd hslash hc

/-- The text of a hash with a plain name is read as that hash. -/
lemma isRead_hash : IsRead (.hash name) := by
  obtain ⟨c, cs, heq, -, -, hspan⟩ := exists_cons_of_isPlainName h
  have hhead := isIdentChar_head_of_isPlainName h
  rw [heq] at hhead
  refine ⟨'#', c :: cs, ?_⟩
  rw [readToken_eq_iff.2 (.hash rfl hhead hspan), ← heq, String.ofList_toList]

/-- The text of a function with a plain name other than that of an address is read as that function. -/
lemma isRead_function (hurl : sameLetters name "url" = false) : IsRead (.function name) := by
  obtain ⟨c, cs, heq, hc, hstart, hspan⟩ := exists_cons_of_isPlainName h
  have hagain := spanName_again (c :: cs) (show continuesName ['('] = false by decide)
  rw [hspan] at hagain
  have hstart' := startsIdent_of_isPlainName h ['(']
  rw [heq] at hstart'
  have hnot : sameLetters (String.ofList (c :: cs)) "url" → quoteFollows [] := by
    rw [← heq, String.ofList_toList, hurl]
    exact fun hfalse => absurd hfalse Bool.false_ne_true
  refine ⟨c, cs ++ ['('], ?_⟩
  have hreads := readToken_eq_iff.2 (.function hc hstart' hagain hnot)
  rw [← heq, String.ofList_toList] at hreads
  exact congrArg Reading.token hreads

end PlainName

/-- An identifier in the sense of the attribute values is a plain name. -/
lemma isPlainName_of_isIdentifier {value : String} (h : isIdentifier value.toList) : isPlainName value := by
  have hchars := isIdentChar_of_isIdentifier h
  have hspan (cs : List Char) (hcs : ∀ c ∈ cs, isIdentChar c) : spanName nameEscape cs = (cs, []) := by
    induction cs with
    | nil => rfl
    | cons c cs ih =>
      obtain ⟨hc, hcs⟩ := List.forall_mem_cons.1 hcs
      rw [spanName_cons cs hc, ih hcs]
  unfold isPlainName
  cases hvalue : value.toList with
  | nil =>
    rw [hvalue] at h
    cases h
  | cons c cs =>
    rw [hvalue] at h hchars
    have hc : c ≠ '\\' := by
      rintro rfl
      exact absurd (hchars _ List.mem_cons_self) (by decide)
    have hstart : startsIdent (c :: cs) := by
      rw [startsIdent_cons]
      by_cases hdash : c = '-'
      · subst hdash
        cases cs with
        | nil => cases h
        | cons d cs =>
          simp only [isIdentifier, Bool.and_eq_true, Bool.or_eq_true, decide_eq_true_eq] at h
          simp [h.1]
      · rw [if_neg hdash, if_neg hc]
        unfold isIdentifier at h
        split at h
        · next heq => exact absurd (List.cons.inj heq).1 hdash
        · simp only [Bool.and_eq_true, Bool.or_eq_true, decide_eq_true_eq, hdash, or_false] at h
          exact h.1
    simp [hc, hstart, hspan _ hchars]

/-- What ends a simple selector does not continue a name. -/
lemma continuesName_of_endsSimple {behind : List Char} (h : EndsSimple behind) : continuesName behind = false := by
  cases behind with
  | nil => rfl
  | cons c cs =>
    obtain ⟨hc, hslash, -⟩ := h c rfl
    simp [continuesName, hc, hslash]

/-! ## Spelled texts -/

/-- These tokens spell the text in front of every text with the property `p`: written one behind the other they are it,
and each of them is apart from what follows. Their brackets are closed, and no others. -/
structure Spells (p : List Char → Prop) (text : List Char) (us : List Token) : Prop where
  text_eq : (Token.concatText us).toList = text
  read : ∀ u ∈ us, IsRead u
  apart : ∀ behind, p behind → standApart behind us
  closed : ClosesBrackets true us

/-- A property of every text. -/
def Anything (_ : List Char) : Prop :=
  True

/-- The text does not begin with white space. -/
def EndsSpace (behind : List Char) : Prop :=
  behind.head?.any isSpace = false

variable {p q : List Char → Prop} {text text' : List Char} {us us' : List Token}

/-- No tokens spell the empty text. -/
lemma spells_nil (p : List Char → Prop) : Spells p [] [] :=
  ⟨rfl, List.forall_mem_nil _, fun _ _ => rfl, closesBrackets_of_isNeutral (List.forall_mem_nil _) true⟩

/-- A token that is no bracket, is read back and stands apart from what follows spells its text. -/
lemma spells_singleton {t : Token} (hread : IsRead t) (hapart : ∀ behind, p behind → isApart behind t)
    (hneutral : isNeutral t) : Spells p t.text.toList [t] := by
  refine ⟨by simp [Token.concatText], by simpa using hread, fun behind hbehind => ?_,
    closesBrackets_of_isNeutral (by simpa using hneutral) true⟩
  rw [standApart_cons, standApart, Bool.and_true]
  exact hapart behind hbehind

/-- Spelled texts may be written one behind the other where the second one ends the first. -/
lemma Spells.append (h : Spells p text us) (h' : Spells q text' us') (hp : ∀ behind, q behind → p (text' ++ behind)) :
    Spells q (text ++ text') (us ++ us') := by
  refine ⟨?_, ?_, fun behind hbehind => ?_, h.closed.append h'.closed⟩
  · rw [toList_concatText_append, h.text_eq, h'.text_eq]
  · exact List.forall_mem_append.2 ⟨h.read, h'.read⟩
  · rw [standApart_append, h'.text_eq, h.apart _ (hp behind hbehind), h'.apart behind hbehind]
    rfl

/-- A text that is spelled in front of some texts is spelled in front of fewer. -/
lemma Spells.mono (h : Spells p text us) (hp : ∀ behind, q behind → p behind) : Spells q text us :=
  ⟨h.text_eq, h.read, fun behind hbehind => h.apart behind (hp behind hbehind), h.closed⟩

/-- A token that stands apart from everything may be written in front of a spelled text. -/
lemma Spells.cons {t : Token} (hread : IsRead t) (hapart : ∀ behind, isApart behind t) (hneutral : isNeutral t)
    (h : Spells p text us) : Spells p (t.text.toList ++ text) (t :: us) :=
  (spells_singleton (p := Anything) hread (fun behind _ => hapart behind) hneutral).append h fun _ _ => trivial

/-- A bracket and the one that closes it may be written around a text that ends there. -/
lemma Spells.between {bracket closing : Token} (h : Spells p text us) (hp : ∀ behind, p (closing.text.toList ++ behind))
    (hbracket : bracket = .leftBracket ∨ ∃ name, bracket = .function name)
    (hclosing : closing = .rightBracket ∨ closing = .rightParen) (hread : IsRead bracket)
    (hapart : ∀ behind, isApart behind bracket) :
    Spells Anything (bracket.text.toList ++ (text ++ closing.text.toList)) (bracket :: (us ++ [closing])) := by
  have hclosing' : IsRead closing ∧ ∀ behind, isApart behind closing := by
    obtain rfl | rfl := hclosing
    · exact ⟨⟨']', [], by decide⟩, fun _ => rfl⟩
    · exact ⟨⟨')', [], by decide⟩, fun _ => rfl⟩
  refine ⟨?_, ?_, fun behind _ => ?_, h.closed.between hbracket hclosing⟩
  · rw [toList_concatText_cons, toList_concatText_append, h.text_eq]
    simp [Token.concatText]
  · refine List.forall_mem_cons.2 ⟨hread, List.forall_mem_append.2 ⟨h.read, ?_⟩⟩
    simpa using hclosing'.1
  · rw [standApart_cons, hapart, Bool.true_and, standApart_append, standApart_cons, hclosing'.2]
    have htext : (Token.concatText [closing]).toList = closing.text.toList := by simp [Token.concatText]
    rw [htext, h.apart _ (hp behind)]
    rfl

section PlainName

variable {name : String} (h : isPlainName name)
include h

/-- An identifier spells its plain name. -/
lemma spells_ident : Spells EndsSimple name.toList [.ident name] := by
  refine spells_singleton (isRead_ident h) (fun behind hbehind => ?_) rfl
  have hparen : behind.head? ≠ some '(' := fun hhead => (hbehind '(' hhead).2.2 rfl
  simp [isApart, endsBefore, endsRun, startsIdent_of_isPlainName h, continuesName_of_endsSimple hbehind, hparen]

/-- A hash spells its plain name behind the number sign. -/
lemma spells_hash : Spells EndsSimple ('#' :: name.toList) [.hash name] := by
  have htext : '#' :: name.toList = (Token.hash name).text.toList := by simp [Token.text]
  rw [htext]
  refine spells_singleton (isRead_hash h) (fun behind hbehind => ?_) rfl
  simp [isApart, endsBefore, endsRun, continuesName_of_endsSimple hbehind]

/-- A point or a per cent sign is no part of a number when a name follows. -/
lemma spells_marked {mark : Char} (hmark : mark = '.' ∨ mark = '%') :
    Spells EndsSimple (mark :: name.toList) [.delim mark, .ident name] := by
  have hlone (behind : List Char) (hbehind : beginsDigit behind = false) : isApart behind (.delim mark) := by
    have hdigit : behind.head?.any Char.isDigit = false := hbehind
    obtain rfl | rfl := hmark
    · simp [isApart, endsBefore, endsRun, startsNumber, hdigit]
    · simp [isApart, endsBefore, endsRun, startsNumber]
  have hread : IsRead (.delim mark) := by
    obtain rfl | rfl := hmark
    · exact ⟨'.', [], by decide⟩
    · exact ⟨'%', [], by decide⟩
  have hname := (spells_singleton hread hlone rfl).append (spells_ident h) fun behind _ =>
    beginsDigit_of_startsIdent (startsIdent_of_isPlainName h behind)
  have htext : (Token.delim mark).text.toList = [mark] := by simp [Token.text]
  rwa [htext] at hname

end PlainName

end Lexer

open Lexer Prelude Text Grammar

/-! ## Plain components -/

namespace Simple

/-- An identifier that begins with no blank, or a value that is written between quotes without any backslash. -/
def IsPlainValue (value : String) : Prop :=
  if isIdentifier value.toList then BeginsNonblank value.toList else '\\' ∉ value.toList ∧ '\n' ∉ value.toList

/-- The argument is written with tokens of its own, which close their brackets and no others. -/
def IsPlainArgument (argument : String) : Prop :=
  ∃ us, Printer.IsWritten ")" argument us ∧ ClosesBrackets true us

instance : DecidablePred IsPlainValue := fun value => inferInstanceAs (Decidable
  (if isIdentifier value.toList then BeginsNonblank value.toList else '\\' ∉ value.toList ∧ '\n' ∉ value.toList))

/-- The tokens of an argument are those of its text in front of the parenthesis that closes it. -/
lemma isPlainArgument_iff {argument : String} : IsPlainArgument argument ↔
    let us := (tokensOf (argument.toList ++ [')'])).dropLast.dropLast
    Token.concatText us = argument ∧ standApart [')'] us ∧ IsTrimmed argument.toList ∧ isPrelude 0 us ∧
      closesNothing 0 us := by
  constructor
  · rintro ⟨us, ⟨rfl, hread, hapart, htrimmed⟩, hclosed, hcloses⟩
    have hclosing : ")".toList = [')'] := rfl
    rw [hclosing] at hapart
    have htokens : tokensOf ((Token.concatText us).toList ++ [')']) = us ++ [.rightParen] ++ [.eof] := by
      rw [tokensOf_standApart hread hapart, tokensOf_punctuation (by rfl), tokensOf_nil]
      simp
    rw [htokens, List.dropLast_concat, List.dropLast_concat]
    exact ⟨rfl, hapart, htrimmed, hclosed, hcloses rfl⟩
  · rintro ⟨htext, hapart, htrimmed, hclosed, hcloses⟩
    refine ⟨_, ⟨htext, fun u hu => ?_, hapart, htrimmed⟩, hclosed, fun _ => hcloses⟩
    refine (isRead_of_mem_tokensOf (List.mem_of_mem_dropLast (List.mem_of_mem_dropLast hu))).resolve_left ?_
    rintro rfl
    exact eof_not_mem_of_isPrelude hclosed hu

instance : DecidablePred IsPlainArgument := fun _ =>
  decidable_of_iff _ isPlainArgument_iff.symm

/-- The names are plain, and so are the value and the argument. -/
def IsPlain : Simple → Prop
  | parent | universal => True
  | type name | id name | className name | placeholder name => isPlainName name
  | attr name matcher => isPlainName name ∧ ∀ m ∈ matcher, IsPlainValue m.value
  | pseudoClass name argument | pseudoElement name argument =>
    isPlainName name ∧ ∀ a ∈ argument, sameLetters name "url" = false ∧ IsPlainArgument a

instance : DecidablePred IsPlain
  | parent | universal => inferInstanceAs (Decidable True)
  | type name | id name | className name | placeholder name => inferInstanceAs (Decidable (isPlainName name = true))
  | attr name matcher => inferInstanceAs (Decidable (isPlainName name = true ∧ ∀ m ∈ matcher, IsPlainValue m.value))
  | pseudoClass name argument | pseudoElement name argument => inferInstanceAs (Decidable
    (isPlainName name = true ∧ ∀ a ∈ argument, sameLetters name "url" = false ∧ IsPlainArgument a))

/-- No blank begins the bare value of a plain component, so that it is stable. -/
lemma IsPlain.isStable {s : Simple} (h : s.IsPlain) : s.IsStable := by
  cases s with
  | attr name matcher =>
    intro m hm hid
    have hvalue := h.2 m hm
    rwa [IsPlainValue, if_pos hid] at hvalue
  | _ => exact fun m hm => absurd hm (by simp [matcher?])

end Simple

namespace Lexer

/-- A character that is a token of its own in front of every text. -/
lemma spells_delim {c : Char} (hc : c ∈ ['&', '*', '=', '~', '|', '^', '$', '>']) {p : List Char → Prop}
    {text : List Char} {us : List Token} (h : Spells p text us) : Spells p (c :: text) (.delim c :: us) := by
  simp only [List.mem_cons, List.not_mem_nil, or_false] at hc
  have hread : (readToken c []).token = .delim c := by
    obtain rfl | rfl | rfl | rfl | rfl | rfl | rfl | rfl := hc <;> decide
  have hapart (behind : List Char) : isApart behind (.delim c) := by
    obtain rfl | rfl | rfl | rfl | rfl | rfl | rfl | rfl := hc <;>
      simp [isApart, endsBefore, endsRun, startsNumber]
  have htext : (Token.delim c).text.toList = [c] := by simp [Token.text]
  have hcons := Spells.cons ⟨c, [], hread⟩ hapart rfl h
  rwa [htext] at hcons

/-- The operator of an attribute selector is spelled by its characters. -/
lemma spells_operator (operator : AttributeOperator) : ∃ us, Spells Anything operator.text.toList us := by
  have hequals : Spells Anything ['='] [.delim '='] := spells_delim (by decide) (spells_nil _)
  cases operator with
  | equals => exact ⟨_, hequals⟩
  | includes | dashMatch | prefixMatch | suffixMatch | substringMatch =>
    exact ⟨_, spells_delim (by decide) hequals⟩

/-- Without backslashes there is nothing but quotes to escape. -/
lemma quoteBody_eq_escape {cs : List Char} (h : '\\' ∉ cs) : Simple.quoteBody cs = Token.escape '"' cs := by
  induction cs with
  | nil => rfl
  | cons c cs ih =>
    obtain ⟨hc, hcs⟩ := not_or.1 (mt List.mem_cons.2 h)
    rw [Simple.quoteBody.eq_def, Token.escape]
    simp only [Ne.symm hc, if_false, false_or]
    split <;> rw [ih hcs]

/-- A quoted value without line breaks is spelled by one string. -/
lemma spells_string {value : String} (h : '\n' ∉ value.toList) :
    Spells Anything ('"' :: (Token.escape '"' value.toList ++ ['"'])) [.string value '"'] := by
  have hquote : '"' ≠ '\\' := by decide
  have hspan := spanString_escape hquote h []
  have hread := readToken_eq_iff.2 (.string (.inl rfl) hspan)
  rw [unescape_escape hquote h, String.ofList_toList] at hread
  have htext : (Token.string value '"').text.toList = '"' :: (Token.escape '"' value.toList ++ ['"']) :=
    String.toList_ofList
  have hspells := spells_singleton (p := Anything) ⟨_, _, congrArg Reading.token hread⟩ (fun _ _ => rfl) rfl
  rwa [htext] at hspells

/-- A plain value is spelled as it is written, bare or quoted. -/
lemma spells_value {value : String} (h : Simple.IsPlainValue value) :
    ∃ us, Spells EndsSimple (Simple.valueText value).toList us := by
  unfold Simple.IsPlainValue at h
  unfold Simple.valueText
  split at h
  · next hid =>
    rw [if_pos hid]
    exact ⟨_, spells_ident (isPlainName_of_isIdentifier hid)⟩
  · next hid =>
    rw [if_neg hid, String.toList_ofList, quoteBody_eq_escape h.1]
    exact ⟨_, (spells_string h.2).mono fun _ _ => trivial⟩

/-- An attribute selector is spelled with its brackets around it. -/
lemma spells_attr {name : String} {matcher : Option AttributeMatch} (h : isPlainName name)
    (hvalue : ∀ m ∈ matcher, Simple.IsPlainValue m.value) :
    ∃ us, Spells Anything (Simple.attr name matcher).text.toList (.leftBracket :: us) := by
  have hbracket (behind : List Char) : EndsSimple (Token.rightBracket.text.toList ++ behind) := by
    rintro c ⟨⟩
    decide
  -- what stands between the brackets
  obtain ⟨us, hus⟩ : ∃ us, Spells EndsSimple (name.toList ++ (Simple.matcherText matcher).toList) us := by
    cases matcher with
    | none => exact ⟨_, by simpa [Simple.matcherText] using spells_ident h⟩
    | some m =>
      obtain ⟨os, hos⟩ := spells_operator m.operator
      obtain ⟨vs, hvs⟩ := spells_value (hvalue m rfl)
      have hmatcher := hos.append hvs fun _ _ => trivial
      have hends (behind : List Char) :
          EndsSimple (m.operator.text.toList ++ (Simple.valueText m.value).toList ++ behind) := by
        cases m.operator <;> (rintro c ⟨⟩; decide)
      have hall := (spells_ident h).append hmatcher fun behind _ => hends behind
      exact ⟨_, by simpa [Simple.matcherText] using hall⟩
  have hall := hus.between hbracket (.inl rfl) (.inl rfl) (show IsRead .leftBracket from ⟨'[', [], by decide⟩)
    fun _ => rfl
  exact ⟨us ++ [.rightBracket], by simpa [Simple.text, Token.text] using hall⟩

/-- The name and the argument of a pseudo-class. -/
lemma spells_pseudo {name : String} {argument : Option String} (h : isPlainName name)
    (hargument : ∀ a ∈ argument, sameLetters name "url" = false ∧ Simple.IsPlainArgument a) :
    ∃ us, Spells EndsSimple (name.toList ++ (Simple.argumentText argument).toList) us := by
  cases argument with
  | none => exact ⟨_, by simpa [Simple.argumentText] using spells_ident h⟩
  | some a =>
    obtain ⟨hurl, us, hwritten, hclosed⟩ := hargument a rfl
    have hus : Spells (fun behind => ∃ tail, behind = ')' :: tail) a.toList us := by
      refine ⟨congrArg String.toList hwritten.text_eq, hwritten.read, ?_, hclosed⟩
      rintro behind ⟨tail, rfl⟩
      have hapart := hwritten.apart
      have hmark := standApart_mark (rfl : isMark ')') (rfl : isMark ')') [] tail [] us
      exact hmark.trans hapart
    have hfunction (behind : List Char) : isApart behind (.function name) := by
      simp [isApart, endsBefore, endsRun, hurl]
    have hall := hus.between (fun behind => ⟨behind, rfl⟩) (.inr ⟨name, rfl⟩) (.inr (rfl : Token.rightParen = _))
      (isRead_function h hurl) hfunction
    exact ⟨_, by simpa [Simple.argumentText, Token.text] using hall.mono fun _ _ => trivial⟩

/-- A plain component is spelled with its tokens, the first of which can begin a rule. -/
lemma exists_spells_simple {s : Simple} (h : s.IsPlain) :
    ∃ us, Spells EndsSimple s.text.toList us ∧ us.head?.all Parser.isPlain := by
  have hcolon {p : List Char → Prop} {text : List Char} {us : List Token} (hus : Spells p text us) :
      Spells p (':' :: text) (.colon :: us) :=
    Spells.cons (show IsRead .colon from ⟨':', [], by decide⟩) (fun _ => rfl) rfl hus
  cases s with
  | parent => exact ⟨_, spells_delim (c := '&') (by decide) (spells_nil _), rfl⟩
  | universal => exact ⟨_, spells_delim (c := '*') (by decide) (spells_nil _), rfl⟩
  | type name => exact ⟨_, spells_ident h, rfl⟩
  | id name => exact ⟨_, by simpa [Simple.text] using spells_hash h, rfl⟩
  | className name => exact ⟨_, by simpa [Simple.text] using spells_marked h (.inl rfl), rfl⟩
  | placeholder name => exact ⟨_, by simpa [Simple.text] using spells_marked h (.inr rfl), rfl⟩
  | attr name matcher =>
    obtain ⟨us, hus⟩ := spells_attr h.1 h.2
    exact ⟨_, hus.mono fun _ _ => trivial, rfl⟩
  | pseudoClass name argument =>
    obtain ⟨us, hus⟩ := spells_pseudo h.1 h.2
    exact ⟨_, by simpa [Simple.text] using hcolon hus, rfl⟩
  | pseudoElement name argument =>
    obtain ⟨us, hus⟩ := spells_pseudo h.1 h.2
    exact ⟨_, by simpa [Simple.text] using hcolon (hcolon hus), rfl⟩

/-! ## Compounds, chains and lists -/

/-- A property of the first token passes to two runs of which both begin so. -/
lemma head?_all_append {p : Token → Bool} {us vs : List Token} (hus : us.head?.all p) (hvs : vs.head?.all p) :
    (us ++ vs).head?.all p := by
  cases us with
  | nil => exact hvs
  | cons => exact hus

/-- Every `&` is spelled by a delimiter. -/
lemma spells_parents (n : Nat) :
    Spells Anything (spelling (List.replicate n .parent)) (List.replicate n (.delim '&')) := by
  induction n with
  | zero => exact spells_nil _
  | succ n ih => exact spells_delim (by decide) ih

/-- The components behind the types are spelled, and a plain token begins them. -/
lemma exists_spells_others {others : List Simple} (ho : ∀ s ∈ others, s.isTypeLike = false)
    (hplain : ∀ s ∈ others, s.IsPlain) :
    ∃ us, Spells EndsSimple (spelling others) us ∧ us.head?.all Parser.isPlain := by
  induction others with
  | nil => exact ⟨[], spells_nil _, rfl⟩
  | cons s others ih =>
    obtain ⟨-, hos⟩ := List.forall_mem_cons.1 ho
    obtain ⟨hs, hplain⟩ := List.forall_mem_cons.1 hplain
    obtain ⟨us, hus, hhead⟩ := exists_spells_simple hs
    obtain ⟨vs, hvs, hhead'⟩ := ih hos hplain
    exact ⟨_, hus.append hvs fun behind hbehind => endsSimple_others hos hbehind, head?_all_append hhead hhead'⟩

/-- In an arranged compound the components follow each other without touching. -/
lemma exists_spells_compound {c : Compound} (ha : c.IsArranged) (hplain : ∀ s ∈ c.components, s.IsPlain) :
    ∃ us, Spells EndsSimple c.text.toList us ∧ us.head?.all Parser.isPlain := by
  obtain ⟨n, lead, others, heq, -, ho, -⟩ := ha
  rw [heq] at hplain
  have hothers (s : Simple) (hs : s ∈ others) : s.IsPlain := hplain s (List.mem_append_right _ hs)
  obtain ⟨os, hos, hhead⟩ := exists_spells_others ho hothers
  have hparents := spells_parents n
  have hparents' : (List.replicate n (Token.delim '&')).head?.all Parser.isPlain := by cases n <;> rfl
  obtain ⟨ls, hls, hhead'⟩ : ∃ ls, Spells EndsSimple (spelling lead.toList) ls ∧ ls.head?.all Parser.isPlain := by
    cases lead with
    | none => exact ⟨[], spells_nil _, rfl⟩
    | some s =>
      obtain ⟨us, hus, hhead'⟩ := exists_spells_simple (hplain s (by simp))
      exact ⟨us, by simpa using hus, hhead'⟩
  have hlead := (hparents.append hls fun _ _ => trivial).append hos fun behind hbehind =>
    endsSimple_others ho hbehind
  refine ⟨_, ?_, head?_all_append (head?_all_append hparents' hhead') hhead⟩
  rwa [toList_text, heq, spelling_append, spelling_append]

/-- A space is spelled by a whitespace token where no further one follows. -/
lemma spells_space : Spells EndsSpace [' '] [.whitespace] := by
  refine spells_singleton (t := .whitespace) ⟨' ', [], by decide⟩ (fun behind hbehind => ?_) rfl
  have hhead : behind.head?.any isSpace = false := hbehind
  simp [isApart, endsBefore, endsRun, hhead]

/-- The combinator in front of a chain, with the space behind it. -/
lemma exists_spells_leading (combinator : Combinator) :
    ∃ us, Spells EndsSpace combinator.leadingText.toList us ∧ us.head?.all Parser.isPlain := by
  cases combinator with
  | descendant => exact ⟨[], spells_nil _, rfl⟩
  | child | subsequentSibling => exact ⟨_, spells_delim (by decide) spells_space, rfl⟩
  | nextSibling =>
    have hplus : Spells (fun behind => ∃ tail, behind = ' ' :: tail) ['+'] [.delim '+'] := by
      refine spells_singleton (t := .delim '+') ⟨'+', [], by decide⟩ ?_ rfl
      rintro behind ⟨tail, rfl⟩
      rfl
    exact ⟨_, hplus.append spells_space fun behind _ => ⟨behind, rfl⟩, rfl⟩

/-- No white space begins the text of a compound. -/
lemma endsSpace_compound {c : Compound} (hc : c.IsComposed) (behind : List Char) :
    EndsSpace (c.text.toList ++ behind) := by
  have hbegins := (beginsCompound_text hc behind).beginsNonblank
  unfold EndsSpace
  generalize c.text.toList ++ behind = cs at hbegins
  cases cs with
  | nil => rfl
  | cons c cs =>
    have hblank := hbegins c rfl
    rw [List.head?_cons, Option.any_some, Bool.eq_false_iff]
    intro hspace
    rw [isBlank_of_isSpace hspace] at hblank
    cases hblank

/-- No white space begins the text of a leading combinator, if none follows it. -/
lemma endsSpace_leading (combinator : Combinator) {behind : List Char} (h : EndsSpace behind) :
    EndsSpace (combinator.leadingText.toList ++ behind) := by
  cases combinator with
  | descendant => exact h
  | child | nextSibling | subsequentSibling => rfl

/-- The text of the further links begins with a space, which ends a simple selector. -/
lemma endsSimple_chainText (ls : List Link) {behind : List Char} (h : EndsSimple behind) :
    EndsSimple (chainText ls ++ behind) := by
  cases ls with
  | nil => exact h
  | cons l ls =>
    obtain ⟨cs, heq⟩ := toList_combinator l.combinator
    rw [chainText_cons, heq]
    rintro c ⟨⟩
    decide

/-- A compound with its combinator in front. -/
lemma exists_spells_link {l : Link} (hl : l.compound.IsComposed) (ha : l.compound.IsArranged)
    (hplain : ∀ s ∈ l.compound.components, s.IsPlain) : ∃ us,
      Spells EndsSimple (l.combinator.leadingText.toList ++ l.compound.text.toList) us ∧
        us.head?.any Parser.isPlain := by
  obtain ⟨us, hus, hhead⟩ := exists_spells_leading l.combinator
  obtain ⟨vs, hvs, hhead'⟩ := exists_spells_compound ha hplain
  refine ⟨_, hus.append hvs fun behind _ => endsSpace_compound hl behind, ?_⟩
  have hall := head?_all_append hhead hhead'
  obtain ⟨c, ds, htext, -⟩ := beginsCompound_text hl []
  cases hvs' : us ++ vs with
  | nil =>
    have hempty := hvs.text_eq
    rw [(List.append_eq_nil_iff.1 hvs').2, ← List.append_nil (l.compound.text.toList), htext] at hempty
    cases hempty
  | cons u ws =>
    rw [hvs'] at hall
    exact hall

/-- A property of the first token is kept by whatever stands behind. -/
lemma head?_any_append {p : Token → Bool} {us : List Token} (h : us.head?.any p) (vs : List Token) :
    (us ++ vs).head?.any p := by
  cases us with
  | nil => cases h
  | cons => exact h

/-- Behind a compound a combinator is written with one more space. -/
lemma exists_spells_chain {ls : List Link} (hc : ∀ l ∈ ls, l.compound.IsComposed)
    (ha : ∀ l ∈ ls, l.compound.IsArranged) (hplain : ∀ l ∈ ls, ∀ s ∈ l.compound.components, s.IsPlain) :
    ∃ us, Spells EndsSimple (chainText ls) us := by
  induction ls with
  | nil => exact ⟨[], spells_nil _⟩
  | cons l ls ih =>
    obtain ⟨hcl, hc⟩ := List.forall_mem_cons.1 hc
    obtain ⟨hal, ha⟩ := List.forall_mem_cons.1 ha
    obtain ⟨hplainl, hplain⟩ := List.forall_mem_cons.1 hplain
    obtain ⟨us, hus, -⟩ := exists_spells_link hcl hal hplainl
    obtain ⟨vs, hvs⟩ := ih hc ha hplain
    have hlink := hus.append hvs fun behind hbehind => endsSimple_chainText ls hbehind
    have hspace := spells_space.append hlink fun behind _ => ?_
    · have htext : l.combinator.text.toList = ' ' :: l.combinator.leadingText.toList := by
        cases l.combinator <;> rfl
      exact ⟨_, by simpa [htext] using hspace⟩
    · rw [List.append_assoc, List.append_assoc]
      exact endsSpace_leading _ (endsSpace_compound hcl _)

section Lists

variable {x : Complex} {xs : List Complex}

/-- A chain of plain components is spelled, and a plain token begins it. -/
lemma exists_spells_complex (hc : x.IsComposed) (ha : ∀ l ∈ x.links, l.compound.IsArranged)
    (hplain : ∀ s ∈ x.components, s.IsPlain) :
    ∃ us, Spells EndsSimple x.text.toList us ∧ us.head?.any Parser.isPlain := by
  obtain ⟨_ | ⟨l, ls⟩⟩ := x
  · exact absurd rfl hc.nonempty
  obtain ⟨hcl, hcs⟩ := List.forall_mem_cons.1 hc.compounds
  obtain ⟨hal, has⟩ := List.forall_mem_cons.1 ha
  rw [Complex.components, List.forall_mem_flatMap] at hplain
  obtain ⟨hplainl, hplain⟩ := List.forall_mem_cons.1 hplain
  obtain ⟨us, hus, hhead⟩ := exists_spells_link hcl hal hplainl
  obtain ⟨vs, hvs⟩ := exists_spells_chain hcs has hplain
  have hall := hus.append hvs fun behind hbehind => endsSimple_chainText ls hbehind
  exact ⟨us ++ vs, by rwa [toList_complex, ← List.append_assoc], head?_any_append hhead vs⟩

/-- No white space begins the text of a chain. -/
lemma endsSpace_complex (hc : x.IsComposed) (behind : List Char) : EndsSpace (x.text.toList ++ behind) := by
  obtain ⟨_ | ⟨l, ls⟩⟩ := x
  · exact absurd rfl hc.nonempty
  rw [toList_complex, List.append_assoc, List.append_assoc]
  exact endsSpace_leading _ (endsSpace_compound (hc.compounds l List.mem_cons_self) _)

/-- The text of the further chains begins with a comma, which ends a simple selector. -/
lemma endsSimple_furtherText (xs : List Complex) {behind : List Char} (h : EndsSimple behind) :
    EndsSimple (furtherText xs ++ behind) := by
  cases xs with
  | nil => exact h
  | cons x xs =>
    rintro c ⟨⟩
    decide

/-- The further chains of plain components are spelled. -/
lemma exists_spells_further (hc : ∀ x ∈ xs, x.IsComposed) (ha : ∀ x ∈ xs, ∀ l ∈ x.links, l.compound.IsArranged)
    (hplain : ∀ x ∈ xs, ∀ s ∈ x.components, s.IsPlain) : ∃ us, Spells EndsSimple (furtherText xs) us := by
  induction xs with
  | nil => exact ⟨[], spells_nil _⟩
  | cons x xs ih =>
    obtain ⟨hcx, hc⟩ := List.forall_mem_cons.1 hc
    obtain ⟨hax, ha⟩ := List.forall_mem_cons.1 ha
    obtain ⟨hplainx, hplain⟩ := List.forall_mem_cons.1 hplain
    obtain ⟨us, hus, -⟩ := exists_spells_complex hcx hax hplainx
    obtain ⟨vs, hvs⟩ := ih hc ha hplain
    have hlist := hus.append hvs fun behind hbehind => endsSimple_furtherText xs hbehind
    have hspace := spells_space.append hlist fun behind _ => ?_
    · exact ⟨_, Spells.cons (show IsRead .comma from ⟨',', [], by decide⟩) (fun _ => rfl) rfl hspace⟩
    · rw [List.append_assoc]
      exact endsSpace_complex hcx _

end Lists

end Lexer

namespace SelectorList

/-- The components are plain, and no blank stands at an end of the text. -/
structure IsPlain (l : SelectorList) : Prop where
  components : ∀ s ∈ l.components, s.IsPlain
  trimmed : IsTrimmed l.text.toList

instance : DecidablePred IsPlain := fun l =>
  decidable_of_iff ((∀ s ∈ l.components, s.IsPlain) ∧ IsTrimmed l.text.toList)
    ⟨fun h => ⟨h.1, h.2⟩, fun h => ⟨h.components, h.trimmed⟩⟩

/-- The text of a plain list that was read is settled in front of a block. -/
theorem isSettledHeader_text {l : SelectorList} (hc : l.IsComposed)
    (ha : ∀ x ∈ l.selectors, ∀ k ∈ x.links, k.compound.IsArranged) (hplain : l.IsPlain) (opens : Bool) :
    Printer.IsSettledHeader opens l.text := by
  obtain ⟨hplain, htrimmed⟩ := hplain
  obtain ⟨_ | ⟨x, xs⟩, position⟩ := l
  · exact absurd rfl hc.nonempty
  obtain ⟨hcx, hcs⟩ := List.forall_mem_cons.1 hc.selectors
  obtain ⟨hax, has⟩ := List.forall_mem_cons.1 ha
  rw [components, List.forall_mem_flatMap] at hplain
  obtain ⟨hplainx, hplain⟩ := List.forall_mem_cons.1 hplain
  obtain ⟨us, hus, hhead⟩ := exists_spells_complex hcx hax hplainx
  obtain ⟨vs, hvs⟩ := exists_spells_further hcs has hplain
  have hall := hus.append hvs fun behind hbehind => endsSimple_furtherText xs hbehind
  have hbehind : EndsSimple (Printer.behindPrelude true).toList := by
    rintro c ⟨⟩
    decide
  rw [← toList_selectors x xs position] at hall
  refine ⟨us ++ vs, ⟨String.toList_inj.1 hall.text_eq, hall.read, hall.apart _ hbehind, htrimmed⟩,
    hall.closed.mono opens, ?_⟩
  have hany := head?_any_append hhead vs
  cases hall' : us ++ vs with
  | nil => rfl
  | cons u ws =>
    rw [hall'] at hany
    exact hany

end SelectorList

end ScssExtend
