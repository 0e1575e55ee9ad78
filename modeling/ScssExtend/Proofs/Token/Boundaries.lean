import ScssExtend.Proofs.Token.Reading

/-!
# Token boundaries in a printed token sequence

`Token.concatText` writes tokens one right behind the other. A token read from such a text is the one that was
written where the text behind it cannot continue it (`endsBefore`). So the tokens of a source text are read back
from their own texts exactly when each of them ends before the texts of the later ones (`tokens_reread_iff`);
comments that kept two tokens apart, and characters that the trimming of an address or the shrinking of white space
removed, are what this can fail for.
-/

namespace ScssExtend

/-- The tokens with each run of white space as one. -/
def Token.mergeSpace : List Token → List Token
  | [] => []
  | t :: ts =>
    if t = whitespace ∧ ts.head? = some whitespace then mergeSpace ts
    else t :: mergeSpace ts

namespace Lexer

open Text

/-- The text `behind` does not continue the written token, and the written token is one. -/
def endsBefore (behind : List Char) : Token → Bool
  | .ident name =>
    startsIdent (name.toList ++ behind) && !continuesName behind && behind.head? ≠ some '('
  | .function name => !sameLetters name "url" || quoteFollows behind
  | .atKeyword name => startsIdent (name.toList ++ behind) && !continuesName behind
  | .hash _ => !continuesName behind
  | .url contents =>
    decide (EscapedRun (· ≠ ')') contents.toList) &&
      !contents.toList.head?.any fun c => c = '"' || c = '\''
  | .number digits =>
    !beginsDigit behind && !(isWhole digits.toList && beginsFraction behind) && !startsIdent behind &&
      behind.head? ≠ some '%'
  | .dimension digits unit =>
    startsIdent (unit.toList ++ behind) && !continuesName behind &&
      (hasExponent digits.toList || !beginsExponent (unit.toList ++ behind))
  | .delim c =>
    !(c = '#' && behind.head?.any isIdentChar) && !(c = '@' && startsIdent behind) &&
      !startsNumber (c :: behind) && !(c = '-' && startsIdent (c :: behind))
  | _ => true

/-- Each token ends before the texts of the tokens behind it. -/
def keepApart : List Token → Bool
  | [] => true
  | t :: ts => endsBefore (Token.concatText ts).toList t && keepApart ts

/-! ## Single characters -/

/-- A punctuation character is a token of its own whatever follows. -/
lemma isLone_of_punctuation {c : Char} {t : Token} (h : punctuation? c = some t) (cs : List Char) :
    IsLone c cs := by
  have hhead : ¬(c = '+' ∨ c = '-' ∨ c = '.' ∨ c.isDigit) ∧ ¬(isIdentStart c ∨ c = '-' ∨ c = '\\') ∧
      isSpace c = false ∧ ¬(c = '"' ∨ c = '\'') ∧ c ≠ '#' ∧ c ≠ '@' := by
    unfold punctuation? at h
    split at h
    case h_10 => cases h
    all_goals decide
  obtain ⟨hnumber, hident, hspace, hquote, hhash, hat⟩ := hhead
  exact ⟨hspace, hquote, fun hc => hhash hc.1, fun hc => hat hc.1,
    Bool.eq_false_iff.2 fun hstart => hnumber (head_of_startsNumber hstart),
    fun hstart => hident (head_of_startsIdent hstart.2)⟩

/-- A punctuation token ends before every text. -/
lemma endsBefore_of_punctuation {c : Char} {t : Token} (h : punctuation? c = some t) (behind : List Char) :
    endsBefore behind t := by
  unfold punctuation? at h
  split at h
  case h_10 => cases h
  all_goals
    cases h
    rfl

/-- A character is a token by itself where no longer token begins. -/
lemma IsLone.iff_endsBefore {c : Char} {cs : List Char} (h : IsLone c cs) (behind : List Char) :
    IsLone c behind ↔ endsBefore behind (.delim c) := by
  have hstart : isIdentStart c = false := by
    rw [Bool.eq_false_iff]
    exact fun hstart => h.not_ident (isIdentStart_or_iff.1 (.inl hstart))
  have hident : c ≠ '\\' ∧ startsIdent (c :: behind) ↔ c = '-' ∧ startsIdent (c :: behind) := by
    rw [← isIdentStart_or_iff, hstart]
    simp
  have hends : endsBefore behind (.delim c) ↔ ¬(c = '#' ∧ behind.head?.any isIdentChar) ∧
      ¬(c = '@' ∧ startsIdent behind) ∧ startsNumber (c :: behind) = false ∧
      ¬(c = '-' ∧ startsIdent (c :: behind)) := by
    simp only [endsBefore, Bool.and_eq_true, Bool.not_eq_true', decide_eq_true_eq, and_assoc,
      ← Bool.not_eq_true]
  rw [hends, ← hident]
  exact ⟨fun h => ⟨h.not_hash, h.not_atKeyword, h.not_number, h.not_ident⟩,
    fun ⟨hhash, hat, hnumber, hnone⟩ => ⟨h.not_space, h.not_quote, hhash, hat, hnumber, hnone⟩⟩

/-! ## Every token ends before what was behind it -/

/-- A token that is written as it was read ends before the text that its reader left. -/
lemma endsBefore_rest {c : Char} {cs : List Char} {reading : Reading} (h : ReadsAs c cs reading)
    (hverbatim : reading.token.isVerbatim) : endsBefore reading.rest reading.token := by
  have hname {ds name rest : List Char} (hspan : spanName nameEscape ds = (name, rest)) :
      name ++ rest = ds ∧ continuesName rest = false := by
    have happ := spanName_append nameEscape ds
    have hstop := continuesName_spanName ds
    rw [hspan] at happ hstop
    exact ⟨happ, hstop⟩
  have hstops := spanNumber_stops (c :: cs)
  cases h with
  | whitespace => cases hverbatim
  | string => cases hverbatim
  | url => cases hverbatim
  | hash _ _ hspan => simp [endsBefore, (hname hspan).2]
  | atKeyword _ hstart hspan => simp [endsBefore, hname hspan, hstart]
  | dimension hnumber hdigits hstart hunit =>
    rw [hdigits] at hstops
    obtain ⟨-, -, hexponent⟩ := hstops
    simpa [endsBefore, hname hunit, hstart, or_iff_not_imp_left] using hexponent
  | percentage => rfl
  | number hnumber hdigits hstart hpercent =>
    rw [hdigits] at hstops
    obtain ⟨hdigit, hfraction, -⟩ := hstops
    simpa [endsBefore, hdigit, hstart, hpercent, ← imp_iff_not_or, ← Bool.not_eq_true] using hfraction
  | function _ _ _ hurl =>
    rw [endsBefore, Bool.or_eq_true, Bool.not_eq_true', ← Bool.not_eq_true, or_iff_not_imp_left, not_not]
    exact hurl
  | ident hc hstart hspan hparen => simp [endsBefore, hname hspan, hstart, hparen]
  | lone hlone =>
    cases hpunct : punctuation? c with
    | none => exact (hlone.iff_endsBefore cs).1 hlone
    | some t => exact endsBefore_of_punctuation hpunct cs

/-! ## A written token is read back -/

/-- A name that an unescaped character starts begins with that character. -/
lemma exists_cons_spanName {c : Char} {cs name rest : List Char} (hc : c ≠ '\\') (h : startsIdent (c :: cs))
    (hspan : spanName nameEscape (c :: cs) = (name, rest)) : ∃ more, name = c :: more := by
  have hchar : isIdentChar c := by
    obtain hstart | rfl | hslash := head_of_startsIdent h
    · exact isIdentChar_of_isIdentStart hstart
    · decide
    · exact absurd hslash hc
  rw [spanName_cons cs hchar] at hspan
  exact ⟨_, (congrArg Prod.fst hspan).symm⟩

/-- The number that starts at a character begins with that character. -/
lemma exists_cons_spanNumber {c : Char} {cs digits rest : List Char} (h : startsNumber (c :: cs))
    (hdigits : spanNumber (c :: cs) = (digits, rest)) : IsNumber digits ∧ ∃ more, digits = c :: more := by
  have hnumber := isNumber_spanNumber h
  have hne := spanNumber_ne_nil h
  have happ := spanNumber_append (c :: cs)
  rw [hdigits] at hnumber hne happ
  obtain ⟨d, more, rfl⟩ := List.exists_cons_of_ne_nil hne
  exact ⟨hnumber, more, by rw [(List.cons.inj happ).1]⟩

/-- Behind a trimmed address a quote follows the parenthesis only if the address begins with one. -/
lemma quoteFollows_of_isTrimmed {cs : List Char} (h : IsTrimmed cs) (behind : List Char) :
    quoteFollows (cs ++ ')' :: behind) = cs.head?.any fun c => c = '"' || c = '\'' := by
  cases cs with
  | nil => simp [quoteFollows, show isSpace ')' = false by decide]
  | cons c cs =>
    have hspace : isSpace c = false := by
      rw [Bool.eq_false_iff]
      intro hspace
      have hblank := h.1 c rfl
      rw [isBlank_of_isSpace hspace] at hblank
      cases hblank
    simp [quoteFollows, hspace]

/-- The token's text is read as the token when `behind` stands behind it. -/
def ReadsBack (behind : List Char) (t : Token) : Prop :=
  ∃ d ds, t.text.toList ++ behind = d :: ds ∧ readToken d ds = ⟨t, t.text.toList, behind⟩

section ReadsBack

variable {c : Char} {cs behind : List Char}

/-- A token whose text is read as a reading of it is read back. -/
lemma readsBack_of_readsAs {t : Token} (htext : t.text.toList = c :: cs)
    (h : ReadsAs c (cs ++ behind) ⟨t, c :: cs, behind⟩) : ReadsBack behind t := by
  rw [ReadsBack, htext]
  exact ⟨c, cs ++ behind, rfl, readToken_eq_iff.2 h⟩

/-- A name is taken again in front of a text that does not continue it. -/
lemma spanName_behind {name rest : List Char} (hspan : spanName nameEscape cs = (name, rest))
    (hstop : continuesName behind = false) : spanName nameEscape (name ++ behind) = (name, behind) := by
  have hagain := spanName_again cs hstop
  rwa [hspan] at hagain

/-- A string is read back from the text it displays. -/
lemma readsBack_string {raw rest : List Char} (hquote : c = '"' ∨ c = '\'') (hraw : spanString c cs = (raw, rest)) :
    ReadsBack behind (.string (String.ofList (unescape c raw)) c) := by
  have hslash : c ≠ '\\' := by obtain rfl | rfl := hquote <;> decide
  have hline : '\n' ∉ unescape c raw := by
    have hline := newline_not_mem_unescape c cs
    rwa [hraw] at hline
  have hreads := ReadsAs.string hquote (spanString_escape hslash hline behind)
  rw [unescape_escape hslash hline] at hreads
  have htext : (Token.string (String.ofList (unescape c raw)) c).text.toList =
      c :: (Token.escape c (unescape c raw) ++ [c]) := by simp [Token.text]
  refine readsBack_of_readsAs htext ?_
  simpa using hreads

/-- A hash is read back where its name ends. -/
lemma readsBack_hash {name rest : List Char} (hhead : cs.head?.any isIdentChar)
    (hspan : spanName nameEscape cs = (name, rest)) (hends : endsBefore behind (.hash (String.ofList name))) :
    ReadsBack behind (.hash (String.ofList name)) := by
  have hstop : continuesName behind = false := by simpa [endsBefore] using hends
  have hfirst : (name ++ behind).head?.any isIdentChar := by
    cases cs with
    | nil => cases hhead
    | cons d ds =>
      have hd : isIdentChar d := hhead
      rw [spanName_cons ds hd] at hspan
      cases hspan
      exact hhead
  exact readsBack_of_readsAs (by simp [Token.text]) (.hash rfl hfirst (spanName_behind hspan hstop))

/-- An at-keyword is read back where its name ends. -/
lemma readsBack_atKeyword {name rest : List Char} (hspan : spanName nameEscape cs = (name, rest))
    (hends : endsBefore behind (.atKeyword (String.ofList name))) :
    ReadsBack behind (.atKeyword (String.ofList name)) := by
  obtain ⟨hagain, hstop⟩ : startsIdent (name ++ behind) ∧ continuesName behind = false := by
    simpa [endsBefore] using hends
  exact readsBack_of_readsAs (by simp [Token.text]) (.atKeyword rfl hagain (spanName_behind hspan hstop))

/-- A dimension is read back where its unit ends. -/
lemma readsBack_dimension {more after unit rest : List Char} (hdigits : IsNumber (c :: more))
    (hunit : spanName nameEscape after = (unit, rest))
    (hends : endsBefore behind (.dimension (String.ofList (c :: more)) (String.ofList unit))) :
    ReadsBack behind (.dimension (String.ofList (c :: more)) (String.ofList unit)) := by
  obtain ⟨⟨hagain, hstop⟩, hexponent⟩ : (startsIdent (unit ++ behind) ∧ continuesName behind = false) ∧
      (hasExponent (c :: more) ∨ beginsExponent (unit ++ behind) = false) := by
    simpa [endsBefore] using hends
  have hspan : spanNumber (c :: (more ++ unit ++ behind)) = (c :: more, unit ++ behind) := by
    rw [List.append_assoc]
    refine spanNumber_run hdigits (beginsDigit_of_startsIdent hagain)
      (fun _ => beginsFraction_of_startsIdent hagain) fun hnone => hexponent.resolve_left ?_
    rw [hnone]
    exact Bool.false_ne_true
  have hnumber : startsNumber (c :: (more ++ unit ++ behind)) := by
    rw [List.append_assoc]
    exact startsNumber_of_isNumber hdigits _
  exact readsBack_of_readsAs (by simp [Token.text])
    (.dimension hnumber hspan hagain (spanName_behind hunit hstop))

/-- A percentage is read back before every text. -/
lemma readsBack_percentage {more : List Char} (hdigits : IsNumber (c :: more)) :
    ReadsBack behind (.percentage (String.ofList (c :: more))) := by
  have hspan : spanNumber (c :: (more ++ ['%'] ++ behind)) = (c :: more, '%' :: behind) := by
    rw [List.append_assoc]
    exact spanNumber_run hdigits rfl (fun _ => rfl) fun _ => rfl
  have hnumber : startsNumber (c :: (more ++ ['%'] ++ behind)) := by
    rw [List.append_assoc]
    exact startsNumber_of_isNumber hdigits _
  exact readsBack_of_readsAs (by simp [Token.text]) (.percentage hnumber hspan)

/-- A number is read back where nothing continues it. -/
lemma readsBack_number {more : List Char} (hdigits : IsNumber (c :: more))
    (hends : endsBefore behind (.number (String.ofList (c :: more)))) :
    ReadsBack behind (.number (String.ofList (c :: more))) := by
  obtain ⟨⟨⟨hdigit, hfraction⟩, hstart⟩, hpercent⟩ : ((beginsDigit behind = false ∧
      (isWhole (c :: more) → beginsFraction behind = false)) ∧ startsIdent behind = false) ∧
        behind.head? ≠ some '%' := by
    simpa [endsBefore, ← imp_iff_not_or, ← Bool.not_eq_true] using hends
  have hspan : spanNumber (c :: (more ++ behind)) = (c :: more, behind) :=
    spanNumber_run hdigits hdigit hfraction fun _ => beginsExponent_of_not_startsIdent hstart
  have hnumber : startsNumber (c :: (more ++ behind)) := startsNumber_of_isNumber hdigits _
  exact readsBack_of_readsAs (by simp [Token.text]) (.number hnumber hspan hstart hpercent)

/-- A trimmed address is read back if it does not begin with a quote. -/
lemma readsBack_url {contents : List Char} (htrimmed : IsTrimmed contents)
    (hends : endsBefore behind (.url (String.ofList contents))) :
    ReadsBack behind (.url (String.ofList contents)) := by
  obtain ⟨hrun, hquote⟩ : EscapedRun (· ≠ ')') contents ∧
      (contents.head?.any fun c => c = '"' || c = '\'') = false := by
    simpa [endsBefore, ← Bool.not_eq_true] using hends
  have hspan : spanName nameEscape ('u' :: 'r' :: 'l' :: '(' :: (contents ++ ')' :: behind)) =
      (['u', 'r', 'l'], '(' :: (contents ++ ')' :: behind)) := spanName_again ['u', 'r', 'l'] rfl
  rw [← quoteFollows_of_isTrimmed htrimmed behind] at hquote
  have hreads := ReadsAs.url (by decide) rfl hspan (by decide) hquote (spanUrl_run hrun behind)
  rw [trim_eq_self htrimmed] at hreads
  refine readsBack_of_readsAs (toList_text_url contents) ?_
  simpa using hreads

/-- A function is read back with its parenthesis, if its name is not that of an address. -/
lemma readsBack_function {more rest : List Char} (hc : c ≠ '\\') (hstart : startsIdent (c :: cs))
    (hspan : spanName nameEscape (c :: cs) = (c :: more, '(' :: rest))
    (hends : endsBefore behind (.function (String.ofList (c :: more)))) :
    ReadsBack behind (.function (String.ofList (c :: more))) := by
  have hurl : sameLetters (String.ofList (c :: more)) "url" → quoteFollows behind := by
    simpa [endsBefore, ← imp_iff_not_or, ← Bool.not_eq_true] using hends
  have hagain : startsIdent (c :: (more ++ ['('] ++ behind)) := by
    have happ := spanName_append nameEscape (c :: cs)
    rw [hspan] at happ
    obtain ⟨-, rfl⟩ := List.cons.inj happ
    rw [← hstart]
    exact startsIdent_congr c (by cases more <;> rfl)
  have hstop : continuesName ('(' :: behind) = false := rfl
  have hparen : spanName nameEscape (c :: (more ++ ['('] ++ behind)) = (c :: more, '(' :: behind) := by
    simpa using spanName_behind hspan hstop
  exact readsBack_of_readsAs (by simp [Token.text]) (.function hc hagain hparen hurl)

/-- An identifier is read back where neither a name nor a parenthesis follows. -/
lemma readsBack_ident {more rest : List Char} (hc : c ≠ '\\') (hspan : spanName nameEscape cs = (c :: more, rest))
    (hends : endsBefore behind (.ident (String.ofList (c :: more)))) :
    ReadsBack behind (.ident (String.ofList (c :: more))) := by
  obtain ⟨⟨hagain, hstop⟩, hnext⟩ :
      (startsIdent (c :: (more ++ behind)) ∧ continuesName behind = false) ∧ behind.head? ≠ some '(' := by
    simpa [endsBefore] using hends
  exact readsBack_of_readsAs (by simp [Token.text]) (.ident hc hagain (spanName_behind hspan hstop) hnext)

/-- A lone character is read back where nothing makes a longer token of it. -/
lemma readsBack_lone (hlone : IsLone c cs) (hends : endsBefore behind ((punctuation? c).getD (.delim c))) :
    ReadsBack behind ((punctuation? c).getD (.delim c)) := by
  refine readsBack_of_readsAs (toList_text_lone c) (.lone ?_)
  rw [List.nil_append]
  cases hpunct : punctuation? c with
  | none =>
    rw [hpunct] at hends
    exact (hlone.iff_endsBefore behind).2 hends
  | some t => exact isLone_of_punctuation hpunct behind

/-- The token in front of a text that does not continue it is read back. -/
lemma readToken_again {reading : Reading} (h : ReadsAs c cs reading) (hspace : reading.token ≠ .whitespace)
    (hends : endsBefore behind reading.token) : ReadsBack behind reading.token := by
  cases h with
  | whitespace => exact absurd rfl hspace
  | string hquote hraw => exact readsBack_string hquote hraw
  | hash _ hhead hspan => exact readsBack_hash hhead hspan hends
  | atKeyword _ _ hspan => exact readsBack_atKeyword hspan hends
  | dimension hnumber hdigits _ hunit =>
    obtain ⟨hdigits, more, rfl⟩ := exists_cons_spanNumber hnumber hdigits
    exact readsBack_dimension hdigits hunit hends
  | percentage hnumber hdigits =>
    obtain ⟨hdigits, more, rfl⟩ := exists_cons_spanNumber hnumber hdigits
    exact readsBack_percentage hdigits
  | number hnumber hdigits =>
    obtain ⟨hdigits, more, rfl⟩ := exists_cons_spanNumber hnumber hdigits
    exact readsBack_number hdigits hends
  | url => exact readsBack_url (isTrimmed_trim _) hends
  | function hc hstart hspan =>
    obtain ⟨more, rfl⟩ := exists_cons_spanName hc hstart hspan
    exact readsBack_function hc hstart hspan hends
  | ident hc hstart hspan =>
    obtain ⟨more, rfl⟩ := exists_cons_spanName hc hstart hspan
    exact readsBack_ident hc hspan hends
  | lone hlone => exact readsBack_lone hlone hends

end ReadsBack

/-! ## A token that is read back ends before the text behind it -/

/-- An address that is read again from its own text does not begin with a quote. -/
lemma endsBefore_url_of_reread {cs behind : List Char} (h : IsTrimmed cs)
    (hagain : (readToken 'u' ('r' :: 'l' :: '(' :: (cs ++ ')' :: behind))).token = .url (String.ofList cs)) :
    endsBefore behind (.url (String.ofList cs)) := by
  have hreads := readsAs_readToken 'u' ('r' :: 'l' :: '(' :: (cs ++ ')' :: behind))
  generalize readToken 'u' ('r' :: 'l' :: '(' :: (cs ++ ')' :: behind)) = reading at hagain hreads
  have hspan : spanName nameEscape ('u' :: 'r' :: 'l' :: '(' :: (cs ++ ')' :: behind)) =
      (['u', 'r', 'l'], '(' :: (cs ++ ')' :: behind)) := spanName_again ['u', 'r', 'l'] rfl
  cases hreads with
  | @url _ _ contents _ _ _ _ hname _ hquote hcontents =>
    rw [hspan] at hname
    cases hname
    rw [quoteFollows_of_isTrimmed h] at hquote
    have htrim : trim contents = cs := by
      simpa using congrArg String.toList (Token.url.inj hagain)
    have hrun := escapedRun_of_trim_spanUrl h (by rwa [hcontents])
    simp only [endsBefore, String.toList_ofList, Bool.and_eq_true, Bool.not_eq_true', decide_eq_true_eq]
    exact ⟨hrun, hquote⟩
  | lone hlone => exact absurd ⟨by decide, rfl⟩ hlone.not_ident
  | _ => cases hagain

/-- A token that is read again from its own text ends before what follows. -/
lemma endsBefore_of_reread {c d : Char} {cs ds behind : List Char} {reading : Reading}
    (h : ReadsAs c cs reading) (htext : reading.token.text.toList ++ behind = d :: ds)
    (hagain : (readToken d ds).token = reading.token) : endsBefore behind reading.token := by
  by_cases hverbatim : reading.token.isVerbatim
  · rw [← hagain] at hverbatim
    have hslice := toList_text_readToken hverbatim
    have hends := endsBefore_rest (readsAs_readToken d ds) hverbatim
    rw [hagain] at hslice hends
    rw [← readToken_append d ds, ← hslice] at htext
    rwa [List.append_cancel_left htext]
  · cases h with
    | whitespace => rfl
    | string => rfl
    | @url name after contents closing rest =>
      have hurl : 'u' :: 'r' :: 'l' :: '(' :: (trim contents ++ ')' :: behind) = d :: ds := by
        rw [← htext, toList_text_url]
        simp
      obtain ⟨rfl, rfl⟩ := List.cons.inj hurl
      exact endsBefore_url_of_reread (isTrimmed_trim contents) hagain
    | lone => exact absurd (isVerbatim_lone c) hverbatim
    | _ => exact absurd rfl hverbatim

/-! ## The texts of the tokens, one behind the other -/

/-- A token's text begins like its slice, unless the token is white space or an address. -/
lemma text_eq_cons (c : Char) (cs : List Char) : ∃ d ds, (readToken c cs).token.text.toList = d :: ds ∧
    ((readToken c cs).token = .whitespace ∧ d = ' ' ∨
      (readToken c cs).token ≠ .whitespace ∧ isSpace d = false ∧ (d = c ∨ d = 'u')) := by
  by_cases hspace : isSpace c
  · rw [readToken_eq_whitespace_iff.2 hspace]
    exact ⟨' ', [], by simp [Token.text], .inl ⟨rfl, rfl⟩⟩
  have hwhite : (readToken c cs).token ≠ .whitespace := mt readToken_eq_whitespace_iff.1 hspace
  rw [Bool.not_eq_true] at hspace
  by_cases hverbatim : (readToken c cs).token.isVerbatim
  · have hslice := toList_text_readToken hverbatim
    have happ := readToken_append c cs
    obtain ⟨d, ds, hd⟩ := List.exists_cons_of_ne_nil (readToken_slice_ne_nil c cs)
    rw [hd] at hslice happ
    obtain ⟨rfl, -⟩ := List.cons.inj happ
    exact ⟨d, ds, hslice, .inr ⟨hwhite, hspace, .inl rfl⟩⟩
  · have hreads := readsAs_readToken c cs
    generalize readToken c cs = reading at hwhite hverbatim hreads
    cases hreads with
    | whitespace => exact absurd rfl hwhite
    | string => exact ⟨c, _, String.toList_ofList, .inr ⟨hwhite, hspace, .inl rfl⟩⟩
    | url => exact ⟨'u', _, toList_text_url _, .inr ⟨hwhite, by decide, .inr rfl⟩⟩
    | lone => exact absurd (isVerbatim_lone c) hverbatim
    | _ => exact absurd rfl hverbatim

/-- Only a slash begins a comment. -/
lemma spanComment_of_ne {c : Char} (h : c ≠ '/') (cs : List Char) : spanComment (c :: cs) = none := by
  unfold spanComment
  split <;> simp_all

/-- A slash begins no comment exactly where neither a slash nor a star follows. -/
lemma spanComment_slash {cs : List Char} :
    spanComment ('/' :: cs) = none ↔ cs.head? ≠ some '/' ∧ cs.head? ≠ some '*' := by
  cases cs with
  | nil => simp [spanComment]
  | cons d ds =>
    unfold spanComment
    split <;> simp_all

/-- A slash that begins no comment is a delimiter. -/
lemma readToken_slash (cs : List Char) : readToken '/' cs = ⟨.delim '/', ['/'], cs⟩ :=
  readToken_eq_iff.2 (.lone ⟨by decide, by decide, by simp, by simp,
    Bool.eq_false_iff.2 fun h => absurd (head_of_startsNumber h) (by decide),
    fun h => absurd (head_of_startsIdent h.2) (by decide)⟩)

/-- The displayed text begins as the source does, up to a space and the name of an address. -/
lemma head_concatText {cs : List Char} (h : spanComment cs = none) :
    ∀ d ∈ (Token.concatText (tokensOf cs)).toList.head?, d = ' ' ∨ d = 'u' ∨ d ∈ cs.head? := by
  cases cs with
  | nil =>
    rw [tokensOf_nil]
    rintro d ⟨⟩
  | cons c cs =>
    obtain ⟨d, ds, htext, hd⟩ := text_eq_cons c cs
    rw [tokensOf_cons h, toList_concatText_cons, htext]
    rintro _ ⟨⟩
    obtain ⟨-, rfl⟩ | ⟨-, -, rfl | rfl⟩ := hd
    · exact .inl rfl
    · exact .inr (.inr rfl)
    · exact .inr (.inl rfl)

/-- No two tokens make up the beginning of a comment. -/
lemma spanComment_concatText (cs : List Char) :
    spanComment (Token.concatText (tokensOf cs)).toList = none := by
  obtain heq | ⟨c, rest, hnone, heq⟩ := tokensOf_cases cs
  · rw [heq]
    rfl
  obtain ⟨d, ds, htext, hd⟩ := text_eq_cons c rest
  by_cases hslash : d = '/'
  · obtain rfl : '/' = c := by
      subst hslash
      obtain ⟨-, hd⟩ | ⟨-, -, hd | hd⟩ := hd
      · cases hd
      · exact hd
      · cases hd
    -- what stands behind the slash in the source can neither be a slash nor a star
    obtain ⟨hline, hblock⟩ := spanComment_slash.1 hnone
    have hrest : spanComment rest = none := by
      cases rest with
      | nil => rfl
      | cons e rest => exact spanComment_of_ne (fun he => hline (by rw [he]; rfl)) rest
    have hslash : (Token.delim '/').text.toList = ['/'] := toList_text_lone '/'
    rw [heq, readToken_slash, toList_concatText_cons, hslash]
    refine spanComment_slash.2 ⟨fun hhead => ?_, fun hhead => ?_⟩
    · obtain h | h | h := head_concatText hrest _ hhead
      · cases h
      · cases h
      · exact hline h
    · obtain h | h | h := head_concatText hrest _ hhead
      · cases h
      · cases h
      · exact hblock h
  · rw [heq, toList_concatText_cons, htext]
    exact spanComment_of_ne hslash _

/-! ## White space -/

/-- Merging spaces keeps the first token. -/
lemma mergeSpace_cons (t : Token) (ts : List Token) : ∃ more, Token.mergeSpace (t :: ts) = t :: more := by
  induction ts generalizing t with
  | nil => exact ⟨[], by simp [Token.mergeSpace]⟩
  | cons u us ih =>
    rw [Token.mergeSpace]
    split
    · next h =>
      obtain ⟨rfl, hu⟩ := h
      cases hu
      exact ih .whitespace
    · exact ⟨_, rfl⟩

/-- Merging keeps two sequences apart that both begin with white space or both do not. -/
lemma mergeSpace_cons_inj {t : Token} {ts us : List Token}
    (h : ts.head? = some .whitespace ↔ us.head? = some .whitespace) :
    Token.mergeSpace (t :: ts) = Token.mergeSpace (t :: us) ↔ Token.mergeSpace ts = Token.mergeSpace us := by
  rw [Token.mergeSpace, Token.mergeSpace]
  by_cases hmerge : t = .whitespace ∧ ts.head? = some .whitespace
  · rw [if_pos hmerge, if_pos ⟨hmerge.1, h.1 hmerge.2⟩]
  · rw [if_neg hmerge, if_neg fun hus => hmerge ⟨hus.1, h.2 hus.2⟩, List.cons.injEq]
    simp

/-- The first token is white space when the first character is. -/
lemma head_tokensOf {cs : List Char} (h : spanComment cs = none) :
    (tokensOf cs).head? = some .whitespace ↔ cs.head?.any isSpace := by
  cases cs with
  | nil => simp [tokensOf_nil]
  | cons c cs => simp [tokensOf_cons h, readToken_eq_whitespace_iff]

/-- The displayed text begins with a space exactly where the source does. -/
lemma head_tokensOf_concatText (cs : List Char) :
    (tokensOf (Token.concatText (tokensOf cs)).toList).head? = some .whitespace ↔
      (tokensOf cs).head? = some .whitespace := by
  rw [head_tokensOf (spanComment_concatText cs)]
  obtain heq | ⟨c, rest, -, heq⟩ := tokensOf_cases cs
  · rw [heq]
    decide
  · obtain ⟨d, ds, htext, hd⟩ := text_eq_cons c rest
    rw [heq, toList_concatText_cons, htext]
    obtain ⟨hwhite, rfl⟩ | ⟨hwhite, hspace, -⟩ := hd
    · rw [hwhite]
      exact iff_of_true rfl rfl
    · simp [hwhite, hspace]

/-- A run of spaces gives a single whitespace token. -/
lemma tokensOf_space {c : Char} (h : isSpace c) (cs : List Char) :
    tokensOf (c :: cs) = .whitespace :: tokensOf (cs.dropWhile isSpace) := by
  have hslash : c ≠ '/' := by
    rintro rfl
    exact absurd h (by decide)
  rw [tokensOf_cons (spanComment_of_ne hslash cs), readToken_eq_iff.2 (.whitespace h)]

/-- A space counts once, whatever white space stands behind it. -/
lemma mergeSpace_space (cs : List Char) :
    Token.mergeSpace (tokensOf (' ' :: cs)) = Token.mergeSpace (.whitespace :: tokensOf cs) := by
  rw [tokensOf_space (by decide)]
  cases cs with
  | nil => rfl
  | cons c cs =>
    by_cases hc : isSpace c
    · rw [List.dropWhile_cons_of_pos hc, tokensOf_space hc cs]
      simp [Token.mergeSpace]
    · rw [List.dropWhile_cons_of_neg hc]

/-! ## The tokens of the printed tokens -/

/-- The first of the written tokens is read back when it ends before the others, and then these are read. -/
lemma reread_cons {c : Char} {cs : List Char} {ts : List Token}
    (hnone : spanComment (Token.concatText ((readToken c cs).token :: ts)).toList = none)
    (hheads : (tokensOf (Token.concatText ts).toList).head? = some .whitespace ↔
      ts.head? = some .whitespace) :
    Token.mergeSpace (tokensOf (Token.concatText ((readToken c cs).token :: ts)).toList) =
        Token.mergeSpace ((readToken c cs).token :: ts) ↔
      endsBefore (Token.concatText ts).toList (readToken c cs).token ∧
        Token.mergeSpace (tokensOf (Token.concatText ts).toList) = Token.mergeSpace ts := by
  obtain ⟨d, ds, htext, hd⟩ := text_eq_cons c cs
  have hreads := readsAs_readToken c cs
  rw [toList_concatText_cons] at hnone ⊢
  generalize readToken c cs = reading at hnone htext hd hreads
  by_cases hwhite : reading.token = .whitespace
  · rw [hwhite]
    exact (Eq.congr_left (mergeSpace_space _)).trans
      ((mergeSpace_cons_inj hheads).trans (iff_and_self.2 fun _ => rfl))
  by_cases hends : endsBefore (Token.concatText ts).toList reading.token
  · obtain ⟨e, es, heq, hagain⟩ := readToken_again hreads hwhite hends
    rw [heq] at hnone ⊢
    rw [tokensOf_cons hnone, hagain]
    exact (mergeSpace_cons_inj hheads).trans (iff_and_self.2 fun _ => hends)
  · refine iff_of_false (fun heq => hends ?_) fun h => hends h.1
    have hcons : reading.token.text.toList ++ (Token.concatText ts).toList =
        d :: (ds ++ (Token.concatText ts).toList) := by rw [htext, List.cons_append]
    rw [hcons] at hnone heq
    rw [tokensOf_cons hnone] at heq
    obtain ⟨more, hmore⟩ := mergeSpace_cons (readToken d (ds ++ (Token.concatText ts).toList)).token
      (tokensOf (readToken d (ds ++ (Token.concatText ts).toList)).rest)
    obtain ⟨more', hmore'⟩ := mergeSpace_cons reading.token ts
    rw [hmore, hmore'] at heq
    exact endsBefore_of_reread hreads hcons (List.cons.inj heq).1

/-- Up to merged spaces the displayed text is read as the same tokens exactly when they keep apart. -/
lemma reread_iff_keepApart (cs : List Char) :
    Token.mergeSpace (tokensOf (Token.concatText (tokensOf cs)).toList) = Token.mergeSpace (tokensOf cs) ↔
      keepApart (tokensOf cs) := by
  induction cs using lexemes.induct with
  | case1 cs gap h =>
    rw [tokensOf_of_spanComments_nil h]
    simp only [keepApart, endsBefore, Bool.and_self, iff_true]
    exact congrArg _ tokensOf_nil
  | case2 cs gap c rest h reading _ ih =>
    have hnone := spanComment_concatText cs
    rw [tokensOf_of_spanComments_cons h] at hnone ⊢
    rw [reread_cons hnone (head_tokensOf_concatText _), ih, keepApart, Bool.and_eq_true]

/-- The tokens of a source text are those of their own texts, runs of white space merged, exactly when each of
them ends before the texts of the later ones. -/
theorem tokens_reread_iff (source : String) :
    Token.mergeSpace (tokens (Token.concatText (tokens source))) = Token.mergeSpace (tokens source) ↔
      keepApart (tokens source) := by
  rw [tokens_eq_tokensOf, tokens_eq_tokensOf]
  exact reread_iff_keepApart source.toList

/-- Two names are one when nothing is left of the comment between them. -/
theorem exists_tokens_fused :
    Token.mergeSpace (tokens (Token.concatText (tokens "a/**/b"))) ≠ Token.mergeSpace (tokens "a/**/b") := by
  decide +kernel

end Lexer

end ScssExtend
