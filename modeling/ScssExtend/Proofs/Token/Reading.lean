import ScssExtend.Proofs.Token.Spans

/-!
# How a token is read

`ReadsAs` lists the ways in which the token at the beginning of a text is read, one constructor for each kind of
token; `readToken` is this relation as a function (`readToken_eq_iff`). White space, strings and addresses apart, a
token is written as its slice (`toList_text_readToken`).
-/

namespace ScssExtend

/-- The token is written the way it was read; white space shrinks, a string is escaped anew and an address is
trimmed. -/
def Token.isVerbatim : Token → Bool
  | whitespace | string .. | url _ => false
  | _ => true

namespace Lexer

open Text

/-- A character that no longer token begins with. -/
structure IsLone (c : Char) (cs : List Char) : Prop where
  not_space : isSpace c = false
  not_quote : ¬(c = '"' ∨ c = '\'')
  not_hash : ¬(c = '#' ∧ cs.head?.any isIdentChar)
  not_atKeyword : ¬(c = '@' ∧ startsIdent cs)
  not_number : startsNumber (c :: cs) = false
  not_ident : ¬(c ≠ '\\' ∧ startsIdent (c :: cs))

/-- The reading of the token at the beginning of `c :: cs`. -/
inductive ReadsAs (c : Char) (cs : List Char) : Reading → Prop where
  | whitespace : isSpace c → ReadsAs c cs ⟨.whitespace, c :: cs.takeWhile isSpace, cs.dropWhile isSpace⟩
  | string {raw rest} : c = '"' ∨ c = '\'' → spanString c cs = (raw, rest) →
    ReadsAs c cs ⟨.string (String.ofList (unescape c raw)) c, c :: raw, rest⟩
  | hash {name rest} : c = '#' → cs.head?.any isIdentChar → spanName nameEscape cs = (name, rest) →
    ReadsAs c cs ⟨.hash (String.ofList name), '#' :: name, rest⟩
  | atKeyword {name rest} : c = '@' → startsIdent cs → spanName nameEscape cs = (name, rest) →
    ReadsAs c cs ⟨.atKeyword (String.ofList name), '@' :: name, rest⟩
  | dimension {digits behind unit rest} : startsNumber (c :: cs) → spanNumber (c :: cs) = (digits, behind) →
    startsIdent behind → spanName nameEscape behind = (unit, rest) →
    ReadsAs c cs ⟨.dimension (String.ofList digits) (String.ofList unit), digits ++ unit, rest⟩
  | percentage {digits rest} : startsNumber (c :: cs) → spanNumber (c :: cs) = (digits, '%' :: rest) →
    ReadsAs c cs ⟨.percentage (String.ofList digits), digits ++ ['%'], rest⟩
  | number {digits rest} : startsNumber (c :: cs) → spanNumber (c :: cs) = (digits, rest) →
    startsIdent rest = false → rest.head? ≠ some '%' →
    ReadsAs c cs ⟨.number (String.ofList digits), digits, rest⟩
  | url {name behind contents closing rest} : c ≠ '\\' → startsIdent (c :: cs) →
    spanName nameEscape (c :: cs) = (name, '(' :: behind) → sameLetters (String.ofList name) "url" →
    quoteFollows behind = false → spanUrl behind = (contents, closing, rest) →
    ReadsAs c cs ⟨.url (String.ofList (trim contents)), name ++ '(' :: (contents ++ closing), rest⟩
  | function {name rest} : c ≠ '\\' → startsIdent (c :: cs) →
    spanName nameEscape (c :: cs) = (name, '(' :: rest) →
    (sameLetters (String.ofList name) "url" → quoteFollows rest) →
    ReadsAs c cs ⟨.function (String.ofList name), name ++ ['('], rest⟩
  | ident {name rest} : c ≠ '\\' → startsIdent (c :: cs) → spanName nameEscape (c :: cs) = (name, rest) →
    rest.head? ≠ some '(' → ReadsAs c cs ⟨.ident (String.ofList name), name, rest⟩
  | lone : IsLone c cs → ReadsAs c cs ⟨(punctuation? c).getD (.delim c), [c], cs⟩

/-- The numeric tokens are readings of a number. -/
lemma readsAs_numeric {c : Char} {cs : List Char} (h : startsNumber (c :: cs)) :
    ReadsAs c cs (readNumeric (c :: cs)) := by
  unfold readNumeric
  dsimp only
  split
  · next hstart => exact .dimension h rfl hstart rfl
  · next hstart =>
    split
    · next rest hpercent => exact .percentage h (Prod.ext rfl hpercent)
    · next hpercent =>
      refine .number h rfl (Bool.eq_false_iff.2 hstart) fun hhead => ?_
      obtain ⟨rest, hrest⟩ := List.head?_eq_some_iff.1 hhead
      exact hpercent rest hrest

/-- Identifiers, functions and addresses are readings of a name. -/
lemma readsAs_identLike {c : Char} {cs : List Char} (hc : c ≠ '\\') (h : startsIdent (c :: cs)) :
    ReadsAs c cs (readIdentLike (c :: cs)) := by
  unfold readIdentLike
  generalize hname : spanName nameEscape (c :: cs) = p
  obtain ⟨name, rest⟩ := p
  dsimp only
  split
  · split
    · next hurl =>
      obtain ⟨hsame, hquote⟩ := Bool.and_eq_true_iff.1 hurl
      exact .url hc h hname hsame (by simpa using hquote) rfl
    · next hurl =>
      refine .function hc h hname fun hsame => ?_
      simpa [hsame] using hurl
  · next hparen =>
    refine .ident hc h hname fun hhead => ?_
    obtain ⟨rest, hrest⟩ := List.head?_eq_some_iff.1 hhead
    exact hparen rest hrest

/-- The reader's own test for a name that begins with no escape. -/
lemma isIdentStart_or_iff {c : Char} {cs : List Char} :
    isIdentStart c ∨ c = '-' ∧ startsIdent (c :: cs) ↔ c ≠ '\\' ∧ startsIdent (c :: cs) := by
  constructor
  · rintro (hstart | ⟨rfl, h⟩)
    · exact ⟨ne_of_isIdentStart hstart (by decide), startsIdent_of_isIdentStart hstart cs⟩
    · exact ⟨by decide, h⟩
  · rintro ⟨hc, h⟩
    obtain hstart | hdash | hslash := head_of_startsIdent h
    · exact .inl hstart
    · exact .inr ⟨hdash, h⟩
    · exact absurd hslash hc

/-- Every token is one of the readings. -/
lemma readsAs_readToken (c : Char) (cs : List Char) : ReadsAs c cs (readToken c cs) := by
  unfold readToken
  split
  · next h => exact .whitespace h
  next hspace =>
  split
  · next h => exact .string h rfl
  next hquote =>
  split
  · next h =>
    rw [h.1]
    exact .hash rfl h.2 rfl
  next hhash =>
  split
  · next h =>
    rw [h.1]
    exact .atKeyword rfl h.2 rfl
  next hat =>
  split
  · next h => exact readsAs_numeric h
  next hnumber =>
  split
  · next h =>
    obtain ⟨hc, hstart⟩ := isIdentStart_or_iff.1 h
    exact readsAs_identLike hc hstart
  · next hident =>
    exact .lone ⟨Bool.eq_false_iff.2 hspace, hquote, hhash, hat, Bool.eq_false_iff.2 hnumber,
      mt isIdentStart_or_iff.2 hident⟩

/-! ## No other way to read -/

/-- A number starts with a sign, a decimal point or a digit. -/
lemma head_of_startsNumber {c : Char} {cs : List Char} (h : startsNumber (c :: cs)) :
    c = '+' ∨ c = '-' ∨ c = '.' ∨ c.isDigit := by
  unfold startsNumber at h
  dsimp only at h
  split at h
  · next hsign => exact hsign.imp_right .inl
  · split at h
    · next hpoint => exact .inr (.inr (.inl hpoint))
    · exact .inr (.inr (.inr h))

/-- Neither white space, nor a quote, nor the sign of a marked name. -/
lemma readToken_of_head {c : Char} {cs : List Char} (h : isIdentChar c ∨ c = '+' ∨ c = '.') :
    readToken c cs =
      if startsNumber (c :: cs) then readNumeric (c :: cs)
      else if isIdentStart c ∨ c = '-' ∧ startsIdent (c :: cs) then readIdentLike (c :: cs)
      else ⟨(punctuation? c).getD (.delim c), [c], cs⟩ := by
  have hne {d : Char} (hd : ¬(isIdentChar d ∨ d = '+' ∨ d = '.')) : c ≠ d := by
    rintro rfl
    exact hd h
  have hspace : isSpace c = false := by
    rw [Bool.eq_false_iff]
    intro hspace
    simp only [isSpace, Bool.or_eq_true, decide_eq_true_eq] at hspace
    obtain (((rfl | rfl) | rfl) | rfl) | rfl := hspace <;> exact absurd h (by decide)
  simp [readToken, hspace, hne (d := '"') (by decide), hne (d := '\'') (by decide),
    hne (d := '#') (by decide), hne (d := '@') (by decide)]

/-- Where a number starts a numeric token is read. -/
lemma readToken_numeric {c : Char} {cs : List Char} (h : startsNumber (c :: cs)) :
    readToken c cs = readNumeric (c :: cs) := by
  have hhead : isIdentChar c ∨ c = '+' ∨ c = '.' := by
    obtain hc | rfl | hc | hc := head_of_startsNumber h
    · exact .inr (.inl hc)
    · exact .inl (by decide)
    · exact .inr (.inr hc)
    · exact .inl (by simp [isIdentChar, hc])
  rw [readToken_of_head hhead, if_pos h]

/-- Where an identifier starts without an escape, a name is read. -/
lemma readToken_identLike {c : Char} {cs : List Char} (hc : c ≠ '\\') (h : startsIdent (c :: cs)) :
    readToken c cs = readIdentLike (c :: cs) := by
  have hhead : isIdentChar c := by
    obtain hstart | rfl | hslash := head_of_startsIdent h
    · exact isIdentChar_of_isIdentStart hstart
    · decide
    · exact absurd hslash hc
  have hnumber : ¬startsNumber (c :: cs) := Bool.eq_false_iff.1 (startsNumber_of_startsIdent h)
  rw [readToken_of_head (.inl hhead), if_neg hnumber, if_pos (isIdentStart_or_iff.2 ⟨hc, h⟩)]

/-- The reader of tokens is the relation `ReadsAs`. -/
lemma readToken_eq_iff {c : Char} {cs : List Char} {reading : Reading} :
    readToken c cs = reading ↔ ReadsAs c cs reading := by
  refine ⟨fun h => h ▸ readsAs_readToken c cs, fun h => ?_⟩
  cases h with
  | whitespace hspace => simp [readToken, hspace]
  | string hquote hraw =>
    have hspace : isSpace c = false := by obtain rfl | rfl := hquote <;> decide
    simp [readToken, hspace, hquote, hraw]
  | hash hc hhead hname =>
    subst hc
    have hspace : isSpace '#' = false := by decide
    simp [readToken, readMarked, hspace, hhead, hname]
  | atKeyword hc hstart hname =>
    subst hc
    have hspace : isSpace '@' = false := by decide
    simp [readToken, readMarked, hspace, hstart, hname]
  | dimension hnumber hdigits hstart hunit =>
    simp [readToken_numeric hnumber, readNumeric, hdigits, hstart, hunit]
  | percentage hnumber hdigits =>
    simp [readToken_numeric hnumber, readNumeric, hdigits, startsIdent, show isIdentStart '%' = false by decide]
  | number hnumber hdigits hstart hpercent =>
    rw [readToken_numeric hnumber, readNumeric, hdigits]
    simp only [hstart, Bool.false_eq_true, if_false]
    split
    · exact absurd rfl hpercent
    · rfl
  | url hc hident hname hsame hquote hcontents =>
    simp [readToken_identLike hc hident, readIdentLike, hname, hsame, hquote, hcontents]
  | function hc hident hname hurl =>
    rw [readToken_identLike hc hident, readIdentLike, hname]
    simp only [Bool.and_eq_true, Bool.not_eq_true']
    rw [if_neg]
    rintro ⟨hsame, hquote⟩
    rw [hurl hsame] at hquote
    cases hquote
  | ident hc hident hname hparen =>
    rw [readToken_identLike hc hident, readIdentLike, hname]
    simp only
    split
    · exact absurd rfl hparen
    · rfl
  | lone hlone =>
    obtain ⟨hspace, hquote, hhash, hat, hnumber, hident⟩ := hlone
    have hstart := mt isIdentStart_or_iff.1 hident
    simp only [readToken, hspace, hquote, hhash, hat, hnumber, hstart, Bool.false_eq_true, if_false]

/-! ## The text of a token -/

/-- The first token is displayed in front of the others. -/
lemma toList_concatText_cons (t : Token) (ts : List Token) :
    (Token.concatText (t :: ts)).toList = t.text.toList ++ (Token.concatText ts).toList := by
  simp [Token.concatText]

/-- A token of one character is displayed as it. -/
lemma toList_text_lone (c : Char) : ((punctuation? c).getD (.delim c)).text.toList = [c] := by
  unfold punctuation?
  split <;> simp [Token.text]

/-- An address is displayed between the parentheses of a lowercase function. -/
lemma toList_text_url (cs : List Char) :
    (Token.url (String.ofList cs)).text.toList = 'u' :: 'r' :: 'l' :: '(' :: (cs ++ [')']) := by
  simp [Token.text]

/-- A token of one character is displayed verbatim. -/
lemma isVerbatim_lone (c : Char) : ((punctuation? c).getD (.delim c)).isVerbatim := by
  unfold punctuation?
  split <;> rfl

/-- No token but white space, strings and addresses differs from its slice. -/
lemma toList_text_readToken {c : Char} {cs : List Char} (h : (readToken c cs).token.isVerbatim) :
    (readToken c cs).token.text.toList = (readToken c cs).slice := by
  have hreads := readsAs_readToken c cs
  generalize readToken c cs = reading at h hreads
  cases hreads with
  | whitespace => cases h
  | string => cases h
  | url => cases h
  | hash => simp [Token.text]
  | atKeyword => simp [Token.text]
  | dimension => simp [Token.text]
  | percentage => simp [Token.text]
  | number => simp [Token.text]
  | function => simp [Token.text]
  | ident => simp [Token.text]
  | lone => exact toList_text_lone c

/-- White space is read exactly where it stands. -/
lemma readToken_eq_whitespace_iff {c : Char} {cs : List Char} :
    (readToken c cs).token = .whitespace ↔ isSpace c := by
  constructor
  · intro h
    have hreads := readsAs_readToken c cs
    generalize readToken c cs = reading at h hreads
    cases hreads with
    | whitespace hspace => exact hspace
    | lone =>
      have hverbatim := isVerbatim_lone c
      dsimp only at h
      rw [h] at hverbatim
      cases hverbatim
    | _ => cases h
  · intro h
    rw [readToken_eq_iff.2 (.whitespace h)]

/-- The end of the input is no token of a nonempty text. -/
lemma readToken_ne_eof (c : Char) (cs : List Char) : (readToken c cs).token ≠ .eof := by
  intro h
  have hverbatim : (readToken c cs).token.isVerbatim := by
    rw [h]
    rfl
  have htext := toList_text_readToken hverbatim
  rw [h] at htext
  exact readToken_slice_ne_nil c cs htext.symm

/-! ## The tokens of a text -/

/-- The tokens of a text, with the end of the input behind them. -/
def tokensOf (cs : List Char) : List Token :=
  (lexemes cs).map Lexeme.token

/-- Where no comment begins there is none. -/
lemma spanComments_of_none {cs : List Char} (h : spanComment cs = none) : spanComments cs = ([], cs) := by
  rw [spanComments.eq_def]
  split
  · rfl
  · next heq => simp [h] at heq

/-- No comment stands behind a run of comments. -/
lemma spanComment_spanComments (cs : List Char) : spanComment (spanComments cs).2 = none := by
  fun_induction spanComments cs with
  | case1 cs h => exact h
  | case2 cs comment rest h _ more rest' heq ih => rwa [heq] at ih

/-- Behind the last comments the end of the input is the only lexeme. -/
lemma lexemes_of_spanComments_nil {cs gap : List Char} (h : spanComments cs = (gap, [])) :
    lexemes cs = [⟨gap, [], .eof⟩] := by
  rw [lexemes.eq_def]
  split <;> simp_all

/-- A lexeme is what is read behind the comments, and the others are those of what is left. -/
lemma lexemes_of_spanComments_cons {cs gap rest : List Char} {c : Char}
    (h : spanComments cs = (gap, c :: rest)) : lexemes cs =
      ⟨gap, (readToken c rest).slice, (readToken c rest).token⟩ :: lexemes (readToken c rest).rest := by
  rw [lexemes.eq_def]
  split <;> simp_all

/-- Behind the last comments the end of the input is the only token. -/
lemma tokensOf_of_spanComments_nil {cs gap : List Char} (h : spanComments cs = (gap, [])) :
    tokensOf cs = [.eof] := by
  rw [tokensOf, lexemes_of_spanComments_nil h]
  rfl

/-- A token is what is read behind the comments, and the others are those of what is left. -/
lemma tokensOf_of_spanComments_cons {cs gap rest : List Char} {c : Char}
    (h : spanComments cs = (gap, c :: rest)) :
    tokensOf cs = (readToken c rest).token :: tokensOf (readToken c rest).rest := by
  rw [tokensOf, lexemes_of_spanComments_cons h]
  rfl

/-- The empty text has only the end of the input. -/
lemma tokensOf_nil : tokensOf [] = [.eof] :=
  tokensOf_of_spanComments_nil (spanComments_of_none rfl)

/-- Where no comment begins a token is read at once. -/
lemma tokensOf_cons {c : Char} {cs : List Char} (h : spanComment (c :: cs) = none) :
    tokensOf (c :: cs) = (readToken c cs).token :: tokensOf (readToken c cs).rest :=
  tokensOf_of_spanComments_cons (spanComments_of_none h)

/-- A text holds comments only, or a first token behind them. -/
lemma tokensOf_cases (cs : List Char) : tokensOf cs = [.eof] ∨ ∃ c rest, spanComment (c :: rest) = none ∧
    tokensOf cs = (readToken c rest).token :: tokensOf (readToken c rest).rest := by
  have hnone := spanComment_spanComments cs
  generalize hspan : spanComments cs = p at hnone
  obtain ⟨gap, _ | ⟨c, rest⟩⟩ := p
  · exact .inl (tokensOf_of_spanComments_nil hspan)
  · exact .inr ⟨c, rest, hnone, tokensOf_of_spanComments_cons hspan⟩

/-- The end of the input is always among the tokens. -/
lemma eof_mem_tokensOf (cs : List Char) : Token.eof ∈ tokensOf cs := by
  induction cs using lexemes.induct with
  | case1 cs gap h =>
    rw [tokensOf_of_spanComments_nil h]
    exact List.mem_singleton_self _
  | case2 cs gap c rest h reading _ ih =>
    rw [tokensOf_of_spanComments_cons h]
    exact List.mem_cons_of_mem _ ih

/-- Placing lexemes keeps their tokens. -/
lemma map_token_place (p : Position) (ls : List Lexeme) :
    (place p ls).map PlacedToken.token = ls.map Lexeme.token := by
  induction ls generalizing p with
  | nil => rfl
  | cons l ls ih => simp [place, ih]

/-- The tokens of a source text without their places. -/
def tokens (source : String) : List Token :=
  (tokenize source).map PlacedToken.token

/-- The tokens of a source are those of its characters. -/
lemma tokens_eq_tokensOf (source : String) : tokens source = tokensOf source.toList :=
  map_token_place _ _

/-! ## The tokens of a part of a text -/

/-- In front of the text `behind`, the text `written` is read as the tokens `ts`, with comments before them. -/
inductive Reads (behind : List Char) : List Char → List Token → Prop where
  | nil : Reads behind [] []
  | cons {gap slice written cs ts c t} : spanComments (gap ++ c :: cs) = (gap, c :: cs) →
    readToken c cs = ⟨t, slice, written ++ behind⟩ → Reads behind written ts →
    Reads behind (gap ++ (slice ++ written)) (t :: ts)

/-- Escaping a value adds no line breaks to it. -/
lemma newline_not_mem_escape {quote : Char} {cs : List Char} (h : '\n' ∉ cs) :
    '\n' ∉ Token.escape quote cs := by
  induction cs with
  | nil => exact h
  | cons c cs ih =>
    obtain ⟨hc, hcs⟩ := not_or.1 (mt List.mem_cons.2 h)
    rw [Token.escape]
    split <;> simp [hc, ih hcs]

/-- A token is not spread over more lines than its slice. -/
lemma newline_mem_slice (c : Char) (cs : List Char) (h : '\n' ∈ (readToken c cs).token.text.toList) :
    '\n' ∈ (readToken c cs).slice := by
  by_cases hverbatim : (readToken c cs).token.isVerbatim
  · rwa [← toList_text_readToken hverbatim]
  have hreads := readsAs_readToken c cs
  generalize readToken c cs = reading at h hverbatim hreads
  cases hreads with
  | whitespace => exact absurd h (by simp [Token.text])
  | @string raw rest hquote hraw =>
    have hne : '\n' ≠ c := by obtain rfl | rfl := hquote <;> decide
    have hline := newline_not_mem_unescape c cs
    rw [hraw] at hline
    exact absurd h (by simp [Token.text, hne, newline_not_mem_escape hline])
  | @url name behind contents closing rest =>
    rw [toList_text_url] at h
    have hmem : '\n' ∈ trim contents := by simpa using h
    obtain ⟨before, after, heq, -, -⟩ := exists_trim_append contents
    rw [← heq]
    simp [hmem]
  | lone => exact absurd (isVerbatim_lone c) hverbatim
  | _ => exact absurd rfl hverbatim

/-- A line break that is displayed was written. -/
lemma Reads.newline_mem {behind written : List Char} {ts : List Token} (h : Reads behind written ts)
    (hline : '\n' ∈ (Token.concatText ts).toList) : '\n' ∈ written := by
  induction h with
  | nil => exact absurd hline (by simp [Token.concatText])
  | @cons gap slice written cs ts c t _ hread _ ih =>
    rw [toList_concatText_cons, List.mem_append] at hline
    refine List.mem_append_right _ (List.mem_append.2 (hline.imp (fun h => ?_) ih))
    have hslice := newline_mem_slice c cs
    rw [hread] at hslice
    exact hslice h

end Lexer

end ScssExtend
