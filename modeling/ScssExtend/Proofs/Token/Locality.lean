import ScssExtend.Proofs.Token.Boundaries

/-!
# Tokens that stand apart

A token is apart from the text behind it when nothing there continues it (`isApart`). Tokens that are all apart from
what is written behind them are the tokens of their own texts (`tokensOf_standApart`). A text that begins with a
character which continues nothing (`Stops`), such as a `{` or a `;`, ends every token, and no token looks further: from
one such text to another the same tokens stand apart (`standApart_congr`).
-/

namespace ScssExtend.Lexer

open Text

/-! ## Texts that continue nothing -/

/-- The text begins with a character that continues no token but white space. -/
def Stops (behind : List Char) : Prop :=
  ∃ c cs, behind = c :: cs ∧ isIdentChar c = false ∧ c ≠ '\\' ∧ c ≠ '(' ∧ c ≠ '%' ∧ c ≠ '.' ∧ c ≠ '+' ∧ c ≠ '/' ∧
    c ≠ '*' ∧ c ≠ '\n'

/-- A space stops a token. -/
lemma stops_space (cs : List Char) : Stops (' ' :: cs) :=
  ⟨' ', cs, rfl, by decide⟩

section Stops

variable {behind behind' : List Char} (h : Stops behind)
include h

/-- What stops a token does not begin with an identifier character. -/
lemma Stops.head_isIdentChar : behind.head?.any isIdentChar = false := by
  obtain ⟨c, cs, rfl, hc, -⟩ := h
  simpa using hc

/-- What stops a token does not begin with a line break, so that a backslash in front of it is an escape. -/
lemma Stops.head_nameEscape : behind.head?.any nameEscape := by
  obtain ⟨c, cs, rfl, -, -, -, -, -, -, -, -, hnewline⟩ := h
  simpa [nameEscape] using hnewline

/-- What stops a token does not make a function or a percentage of it. -/
lemma Stops.head?_ne : behind.head? ≠ some '(' ∧ behind.head? ≠ some '%' := by
  obtain ⟨c, cs, rfl, -, -, hparen, hpercent, -⟩ := h
  simpa using ⟨hparen, hpercent⟩

/-- What stops a token does not continue a name. -/
lemma Stops.continuesName : Lexer.continuesName behind = false := by
  obtain ⟨c, cs, rfl, hc, hslash, -⟩ := h
  simp [Lexer.continuesName, hc, hslash]

/-- What stops a token does not begin with a digit. -/
lemma Stops.beginsDigit : Lexer.beginsDigit behind = false := by
  obtain ⟨c, cs, rfl, hc, -⟩ := h
  rw [beginsDigit_cons]
  simp only [isIdentChar, Bool.or_eq_false_iff] at hc
  exact hc.1.2

/-- What stops a token does not begin with a decimal point. -/
lemma Stops.beginsFraction : Lexer.beginsFraction behind = false := by
  obtain ⟨c, cs, rfl, -, -, -, -, hpoint, -⟩ := h
  simp [beginsFraction_cons, hpoint]

/-- What stops a token does not start an identifier. -/
lemma Stops.startsIdent : Lexer.startsIdent behind = false := by
  obtain ⟨c, cs, rfl, hc, hslash, -⟩ := h
  rw [Bool.eq_false_iff]
  intro hstart
  obtain hstart | rfl | rfl := head_of_startsIdent hstart
  · rw [isIdentChar_of_isIdentStart hstart] at hc
    cases hc
  · cases hc
  · exact hslash rfl

/-- What stops a token has no sign in front. -/
lemma Stops.spanSign : Lexer.spanSign behind = ([], behind) := by
  obtain ⟨c, cs, rfl, hc, -, -, -, -, hplus, -⟩ := h
  have hdash : c ≠ '-' := by
    rintro rfl
    cases hc
  simp [Lexer.spanSign, hplus, hdash]

/-- Whether a character in front of it starts an identifier is told by the character alone. -/
lemma Stops.startsIdent_cons (c : Char) : Lexer.startsIdent (c :: behind) =
    if c = '-' then false else if c = '\\' then true else isIdentStart c := by
  obtain ⟨d, ds, rfl, hd, hslash, -⟩ := id h
  have hstart : isIdentStart d = false := by
    rw [Bool.eq_false_iff]
    intro hstart
    rw [isIdentChar_of_isIdentStart hstart] at hd
    cases hd
  have hdash : d ≠ '-' := by
    rintro rfl
    cases hd
  rw [Lexer.startsIdent_cons, h.head_nameEscape]
  simp [hstart, hdash, hslash]

/-! ### From one such text to another -/

variable (h' : Stops behind') (cs : List Char)
include h'

/-- Behind other characters, one such text does for another. -/
lemma Stops.continuesName_append :
    Lexer.continuesName (cs ++ behind) = Lexer.continuesName (cs ++ behind') := by
  cases cs with
  | nil => rw [List.nil_append, List.nil_append, h.continuesName, h'.continuesName]
  | cons c cs =>
    cases cs with
    | nil => simp only [List.cons_append, List.nil_append, Lexer.continuesName, h.head_nameEscape, h'.head_nameEscape]
    | cons d cs => rfl

/-- Whether a text begins with a digit does not depend on what stops it. -/
lemma Stops.beginsDigit_append : Lexer.beginsDigit (cs ++ behind) = Lexer.beginsDigit (cs ++ behind') := by
  cases cs with
  | nil => rw [List.nil_append, List.nil_append, h.beginsDigit, h'.beginsDigit]
  | cons => rfl

/-- Whether a text begins with a fraction does not depend on what stops it. -/
lemma Stops.beginsFraction_append :
    Lexer.beginsFraction (cs ++ behind) = Lexer.beginsFraction (cs ++ behind') := by
  cases cs with
  | nil => rw [List.nil_append, List.nil_append, h.beginsFraction, h'.beginsFraction]
  | cons c cs => simp only [List.cons_append, beginsFraction_cons, h.beginsDigit_append h' cs]

/-- An optional sign is taken off the characters in front. -/
lemma Stops.exists_spanSign_append : ∃ ds, (Lexer.spanSign (cs ++ behind)).2 = ds ++ behind ∧
    (Lexer.spanSign (cs ++ behind')).2 = ds ++ behind' := by
  cases cs with
  | nil => exact ⟨[], by rw [List.nil_append, h.spanSign], by rw [List.nil_append, h'.spanSign]⟩
  | cons c cs =>
    rw [List.cons_append, List.cons_append, Lexer.spanSign, Lexer.spanSign]
    split
    · exact ⟨cs, rfl, rfl⟩
    · exact ⟨c :: cs, rfl, rfl⟩

/-- Whether a text starts a number does not depend on what stops it. -/
lemma Stops.startsNumber_append :
    Lexer.startsNumber (cs ++ behind) = Lexer.startsNumber (cs ++ behind') := by
  obtain ⟨ds, hds, hds'⟩ := h.exists_spanSign_append h' cs
  rw [Bool.eq_iff_iff, startsNumber_iff, startsNumber_iff, hds, hds', h.beginsDigit_append h',
    h.beginsFraction_append h']

/-- Whether a text begins with an exponent does not depend on what stops it. -/
lemma Stops.beginsExponent_append :
    Lexer.beginsExponent (cs ++ behind) = Lexer.beginsExponent (cs ++ behind') := by
  cases cs with
  | nil =>
    rw [List.nil_append, List.nil_append, beginsExponent_of_not_startsIdent h.startsIdent,
      beginsExponent_of_not_startsIdent h'.startsIdent]
  | cons c cs =>
    obtain ⟨ds, hds, hds'⟩ := h.exists_spanSign_append h' cs
    simp only [List.cons_append, Lexer.beginsExponent, hds, hds', h.beginsDigit_append h' ds]

/-- Whether a text starts an identifier does not depend on what stops it. -/
lemma Stops.startsIdent_append :
    Lexer.startsIdent (cs ++ behind) = Lexer.startsIdent (cs ++ behind') := by
  cases cs with
  | nil => rw [List.nil_append, List.nil_append, h.startsIdent, h'.startsIdent]
  | cons c cs =>
    cases cs with
    | nil => exact (h.startsIdent_cons c).trans (h'.startsIdent_cons c).symm
    | cons d cs => exact startsIdent_congr c rfl

/-- Whether a text begins with an identifier character does not depend on what stops it. -/
lemma Stops.isIdentChar_append :
    (cs ++ behind).head?.any isIdentChar = (cs ++ behind').head?.any isIdentChar := by
  cases cs with
  | nil => rw [List.nil_append, List.nil_append, h.head_isIdentChar, h'.head_isIdentChar]
  | cons => rfl

/-- Whether a parenthesis or a per cent sign begins a text does not depend on what stops it. -/
lemma Stops.head?_append {c : Char} (hc : c = '(' ∨ c = '%') :
    decide ((cs ++ behind).head? ≠ some c) = decide ((cs ++ behind').head? ≠ some c) := by
  cases cs with
  | nil => obtain rfl | rfl := hc <;> simp [h.head?_ne, h'.head?_ne]
  | cons => rfl

omit h h' in
/-- Whether a quote follows is told by the text, or else by what stands behind it. -/
lemma quoteFollows_append (hquote : quoteFollows behind = quoteFollows behind') :
    quoteFollows (cs ++ behind) = quoteFollows (cs ++ behind') := by
  induction cs with
  | nil => exact hquote
  | cons c cs ih =>
    by_cases hc : isSpace c
    · simpa [quoteFollows, hc] using ih
    · simp [quoteFollows, hc]

/-- Whether a token ends before a text does not depend on what stops the text. -/
lemma Stops.endsBefore_append (hquote : quoteFollows behind = quoteFollows behind') (t : Token) :
    endsBefore (cs ++ behind) t = endsBefore (cs ++ behind') t := by
  cases t with
  | ident =>
    simp only [endsBefore, ← List.append_assoc, h.startsIdent_append h', h.continuesName_append h' cs]
    rw [h.head?_append h' cs (.inl rfl)]
  | function => simp only [endsBefore, quoteFollows_append cs hquote]
  | atKeyword =>
    simp only [endsBefore, ← List.append_assoc, h.startsIdent_append h', h.continuesName_append h' cs]
  | hash => simp only [endsBefore, h.continuesName_append h' cs]
  | number =>
    simp only [endsBefore, h.beginsDigit_append h' cs, h.beginsFraction_append h' cs, h.startsIdent_append h' cs]
    rw [h.head?_append h' cs (.inr rfl)]
  | dimension =>
    simp only [endsBefore, ← List.append_assoc, h.startsIdent_append h', h.continuesName_append h' cs,
      h.beginsExponent_append h']
  | delim =>
    simp only [endsBefore, ← List.cons_append, h.startsIdent_append h', h.startsNumber_append h',
      h.isIdentChar_append h']
  | _ => rfl

end Stops

/-! ## Tokens in front of a text -/

/-- A token that some text begins with. -/
def IsRead (t : Token) : Prop :=
  ∃ c cs, (readToken c cs).token = t

/-- A token's text is not empty. It does not begin with a newline, and with a backslash only if it is one. -/
lemma IsRead.exists_cons {t : Token} (h : IsRead t) :
    ∃ c cs, t.text.toList = c :: cs ∧ nameEscape c ∧ (c = '\\' → cs = []) := by
  obtain ⟨c, cs, rfl⟩ := h
  obtain ⟨d, ds, htext, hd⟩ := text_eq_cons c cs
  refine ⟨d, ds, htext, ?_, ?_⟩
  · obtain ⟨-, rfl⟩ | ⟨-, hspace, -⟩ := hd
    · decide
    · have hne : d ≠ '\n' := by
        rintro rfl
        cases hspace
      simpa [nameEscape] using hne
  · rintro rfl
    obtain ⟨-, hd⟩ | ⟨-, -, rfl | hd⟩ := hd
    · cases hd
    · have hlone : IsLone '\\' cs := ⟨by decide, by decide, by simp, by simp,
        Bool.eq_false_iff.2 fun hstart => absurd (head_of_startsNumber hstart) (by decide), by simp⟩
      have hslash : ((readToken '\\' cs).token.text).toList = ['\\'] := by
        rw [readToken_eq_iff.2 (.lone hlone)]
        exact toList_text_lone '\\'
      rw [hslash] at htext
      exact (List.cons.inj htext).2.symm
    · cases hd

/-- The end of the input is not read from any text. -/
lemma IsRead.ne_eof {t : Token} (h : IsRead t) : t ≠ .eof := by
  obtain ⟨c, cs, rfl⟩ := h
  exact readToken_ne_eof c cs

/-- All tokens of a text are read, up to the end of the input. -/
lemma isRead_of_mem_tokensOf {cs : List Char} {t : Token} (h : t ∈ tokensOf cs) : t = .eof ∨ IsRead t := by
  induction cs using lexemes.induct with
  | case1 cs gap hspan =>
    rw [tokensOf_of_spanComments_nil hspan] at h
    exact .inl (List.mem_singleton.1 h)
  | case2 cs gap c rest hspan reading _ ih =>
    rw [tokensOf_of_spanComments_cons hspan] at h
    obtain rfl | h := List.mem_cons.1 h
    · exact .inr ⟨c, rest, rfl⟩
    · exact ih h

/-- The text `behind` neither goes on with white space nor makes a comment of a slash. -/
def endsRun (behind : List Char) : Token → Bool
  | .whitespace => !behind.head?.any isSpace
  | .delim c => c ≠ '/' || behind.head? ≠ some '/' && behind.head? ≠ some '*'
  | _ => true

/-- The text `behind` does not continue the written token. -/
def isApart (behind : List Char) (t : Token) : Bool :=
  endsBefore behind t && endsRun behind t

/-- Each token is apart from the texts of the later ones, with `behind` written behind them all. -/
def standApart (behind : List Char) : List Token → Bool
  | [] => true
  | t :: ts => isApart ((Token.concatText ts).toList ++ behind) t && standApart behind ts

/-- The first token stands apart from the texts behind it, and so do the others. -/
lemma standApart_cons (behind : List Char) (t : Token) (ts : List Token) : standApart behind (t :: ts) =
    (isApart ((Token.concatText ts).toList ++ behind) t && standApart behind ts) :=
  rfl

/-- Two runs of tokens stand apart when the first does so in front of the second. -/
lemma standApart_append (behind : List Char) (ts us : List Token) : standApart behind (ts ++ us) =
    (standApart ((Token.concatText us).toList ++ behind) ts && standApart behind us) := by
  induction ts with
  | nil => rfl
  | cons t ts ih =>
    have htext : (Token.concatText (ts ++ us)).toList =
        (Token.concatText ts).toList ++ (Token.concatText us).toList := by simp [Token.concatText]
    rw [List.cons_append, standApart, standApart, ih, htext, List.append_assoc, Bool.and_assoc]

section Congr

variable {behind behind' : List Char} (h : Stops behind) (h' : Stops behind')
  (hquote : quoteFollows behind = quoteFollows behind')
include h h' hquote

/-- A token is apart from a text whatever stops it, unless that text is empty and the token white space. -/
lemma isApart_congr {cs : List Char} {t : Token} (hcs : cs = [] → t ≠ .whitespace) :
    isApart (cs ++ behind) t = isApart (cs ++ behind') t := by
  have hrun : endsRun (cs ++ behind) t = endsRun (cs ++ behind') t := by
    obtain ⟨c, _, rfl, -, -, -, -, -, -, hslash, hstar, -⟩ := h
    obtain ⟨d, _, rfl, -, -, -, -, -, -, hslash', hstar', -⟩ := h'
    cases cs with
    | nil => cases t <;> simp_all [endsRun]
    | cons => cases t <;> rfl
  rw [isApart, isApart, h.endsBefore_append h' cs hquote, hrun]

/-- Tokens of which the last one is no white space are apart from both texts, or from neither. -/
lemma standApart_congr {ts : List Token} (hread : ∀ t ∈ ts, IsRead t) (hlast : ts.getLast? ≠ some .whitespace) :
    standApart behind ts = standApart behind' ts := by
  induction ts with
  | nil => rfl
  | cons t ts ih =>
    obtain ⟨-, hts⟩ := List.forall_mem_cons.1 hread
    cases ts with
    | nil =>
      have hne : t ≠ .whitespace := by simpa using hlast
      rw [standApart, standApart, isApart_congr h h' hquote fun _ => hne]
      rfl
    | cons u us =>
      have hne : (Token.concatText (u :: us)).toList ≠ [] := by
        obtain ⟨d, ds, htext, -⟩ := (hts u List.mem_cons_self).exists_cons
        rw [toList_concatText_cons, htext]
        exact List.cons_ne_nil _ _
      rw [List.getLast?_cons_cons] at hlast
      rw [standApart_cons behind t, standApart_cons behind' t, ih hts hlast,
        isApart_congr h h' hquote fun hnil => absurd hnil hne]

end Congr

/-! ## Keywords -/

/-- A backslash in front of tokens, or of a text that continues nothing, would escape what follows. -/
lemma nameEscape_concatText {us : List Token} {behind : List Char} (hread : ∀ u ∈ us, IsRead u) (hstops : Stops behind)
    {cs : List Char} (h : (Token.concatText us).toList ++ behind = '\\' :: cs) : cs.head?.any nameEscape := by
  cases us with
  | nil =>
    obtain ⟨c, ds, rfl, -, hc, -⟩ := hstops
    exact absurd (List.cons.inj h).1 hc
  | cons u us =>
    obtain ⟨hu, hus⟩ := List.forall_mem_cons.1 hread
    obtain ⟨c, ds, htext, -, hc⟩ := hu.exists_cons
    rw [toList_concatText_cons, htext, List.append_assoc, List.cons_append] at h
    obtain ⟨hslash, rfl⟩ := List.cons.inj h
    rw [hc hslash]
    cases us with
    | nil => exact hstops.head_nameEscape
    | cons v vs =>
      obtain ⟨d, _, htext, hd, -⟩ := (hus v List.mem_cons_self).exists_cons
      rw [toList_concatText_cons, htext]
      exact hd

/-- Where nothing continues a name, the name alone tells whether it is an identifier. -/
lemma startsIdent_of_head {name cs behind : List Char} (hstops : Stops behind)
    (hhead : ∀ c ∈ cs.head?, isIdentStart c = false ∧ c ≠ '-' ∧ c ≠ '\\') (h : startsIdent (name ++ cs)) :
    startsIdent (name ++ behind) := by
  match name with
  | [] =>
    cases cs with
    | nil => cases h
    | cons c cs =>
      obtain ⟨hc, hdash, hslash⟩ := hhead c rfl
      have hstart := head_of_startsIdent h
      simp [hc, hdash, hslash] at hstart
  | [a] =>
    rw [List.cons_append, List.nil_append, startsIdent_cons] at h
    rw [List.cons_append, List.nil_append, hstops.startsIdent_cons]
    split at h
    · cases cs with
      | nil => cases h
      | cons c cs =>
        obtain ⟨hc, hdash, hslash⟩ := hhead c rfl
        simp [hc, hdash, hslash] at h
    · next hdash =>
      rw [if_neg hdash]
      split at h
      · next hslash => rw [if_pos hslash]
      · next hslash => rwa [if_neg hslash]
  | a :: b :: name =>
    have hsame : startsIdent (a :: b :: name ++ behind) = startsIdent (a :: b :: name ++ cs) := startsIdent_congr a rfl
    rwa [hsame]

/-- A keyword that is apart from other tokens is apart from whatever continues nothing. -/
lemma isApart_atKeyword {name : String} {us : List Token} {behind behind' : List Char} (hread : ∀ u ∈ us, IsRead u)
    (hstops : Stops behind) (h : isApart ((Token.concatText us).toList ++ behind) (.atKeyword name))
    (hstops' : Stops behind') : isApart behind' (.atKeyword name) := by
  simp only [isApart, endsBefore, endsRun, Bool.and_true, Bool.and_eq_true, Bool.not_eq_true'] at h ⊢
  obtain ⟨hstart, hends⟩ := h
  refine ⟨startsIdent_of_head hstops' (fun c hc => ?_) hstart, hstops'.continuesName⟩
  obtain ⟨cs, hcs⟩ := List.head?_eq_some_iff.1 hc
  rw [hcs] at hends
  simp only [continuesName, Bool.or_eq_false_iff] at hends
  refine ⟨Bool.eq_false_iff.2 fun hstart => ?_, ?_, ?_⟩
  · rw [isIdentChar_of_isIdentStart hstart] at hends
    exact absurd hends.1 Bool.noConfusion
  · rintro rfl
    exact absurd hends.1 (by decide)
  · rintro rfl
    have hnot := hends.2
    rw [nameEscape_concatText hread hstops hcs] at hnot
    exact absurd hnot (by decide)

/-! ## Reading them again -/

/-- A token that is apart from the text behind it is the first one of both. -/
lemma tokensOf_isApart {behind : List Char} {t : Token} (hread : IsRead t) (h : isApart behind t) :
    tokensOf (t.text.toList ++ behind) = t :: tokensOf behind := by
  rw [isApart, Bool.and_eq_true] at h
  obtain ⟨hends, hmore⟩ := h
  by_cases hspace : t = .whitespace
  · subst hspace
    have hhead : behind.dropWhile isSpace = behind := by
      cases behind with
      | nil => rfl
      | cons c cs => exact List.dropWhile_cons_of_neg (by simpa [endsRun] using hmore)
    have htext : Token.whitespace.text.toList = [' '] := rfl
    rw [htext, List.singleton_append, tokensOf_space (by decide), hhead]
  obtain ⟨c, cs, rfl⟩ := hread
  obtain ⟨d, ds, heq, hagain⟩ := readToken_again (readsAs_readToken c cs) hspace hends
  have hnone : spanComment (d :: ds) = none := by
    by_cases hslash : d = '/'
    · subst hslash
      have hdelim := congrArg Reading.token hagain
      have hbehind := congrArg Reading.rest hagain
      rw [readToken_slash] at hdelim hbehind
      dsimp only at hdelim hbehind
      rw [← hdelim] at hmore
      rw [spanComment_slash, hbehind]
      simpa [endsRun] using hmore
    · exact spanComment_of_ne hslash ds
  rw [heq, tokensOf_cons hnone, hagain]

/-- Tokens that stand apart are read from their texts as they were written. -/
lemma tokensOf_standApart {behind : List Char} {ts : List Token} (hread : ∀ t ∈ ts, IsRead t)
    (h : standApart behind ts) : tokensOf ((Token.concatText ts).toList ++ behind) = ts ++ tokensOf behind := by
  induction ts with
  | nil => rfl
  | cons t ts ih =>
    obtain ⟨ht, hts⟩ := List.forall_mem_cons.1 hread
    rw [standApart, Bool.and_eq_true] at h
    rw [toList_concatText_cons, List.append_assoc, tokensOf_isApart ht h.1, ih hts h.2, List.cons_append]

/-! ## Marks -/

/-- The characters that end a prelude, the name of a declaration or an argument, and the one that begins a flag. -/
def isMark : Char → Bool
  | '{' | ';' | ':' | ')' | '!' => true
  | _ => false

/-- The marks, written out. -/
lemma eq_of_isMark {c : Char} (h : isMark c) : c = '{' ∨ c = ';' ∨ c = ':' ∨ c = ')' ∨ c = '!' := by
  unfold isMark at h
  split at h <;> simp_all

section Marks

variable {mark : Char} (hmark : isMark mark)
include hmark

/-- A mark stops a token. -/
lemma stops_mark (cs : List Char) : Stops (mark :: cs) := by
  refine ⟨mark, cs, rfl, ?_⟩
  obtain rfl | rfl | rfl | rfl | rfl := eq_of_isMark hmark <;> decide

/-- A mark is no quote. -/
lemma quoteFollows_mark (cs : List Char) : quoteFollows (mark :: cs) = false := by
  obtain rfl | rfl | rfl | rfl | rfl := eq_of_isMark hmark <;> rfl

/-- Whatever stands behind a mark, and whichever mark it is, it makes no difference to the token in front. -/
lemma isApart_mark {mark' : Char} (hmark' : isMark mark') (cs ds ds' : List Char) (t : Token) :
    isApart (cs ++ mark :: ds) t = isApart (cs ++ mark' :: ds') t := by
  by_cases hspace : cs = [] ∧ t = .whitespace
  · obtain ⟨rfl, rfl⟩ := hspace
    have hhead : isSpace mark = false := by
      obtain rfl | rfl | rfl | rfl | rfl := eq_of_isMark hmark <;> decide
    have hhead' : isSpace mark' = false := by
      obtain rfl | rfl | rfl | rfl | rfl := eq_of_isMark hmark' <;> decide
    simp [isApart, endsBefore, endsRun, hhead, hhead']
  · refine isApart_congr (stops_mark hmark ds) (stops_mark hmark' ds') ?_ fun hcs ht => hspace ⟨hcs, ht⟩
    rw [quoteFollows_mark hmark, quoteFollows_mark hmark']

/-- Tokens that stand apart in front of one mark do so in front of every other. -/
lemma standApart_mark {mark' : Char} (hmark' : isMark mark') (cs ds ds' : List Char) (ts : List Token) :
    standApart (cs ++ mark :: ds) ts = standApart (cs ++ mark' :: ds') ts := by
  induction ts with
  | nil => rfl
  | cons t ts ih =>
    rw [standApart, standApart, ih, ← List.append_assoc, ← List.append_assoc, isApart_mark hmark hmark' _ ds ds']

end Marks

end ScssExtend.Lexer
