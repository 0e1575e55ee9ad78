import Mathlib.Data.List.Infix
import ScssExtend.Proofs.Token.Reading

/-!
# What a string denotes

`codePoints` is what the text between the quotes of a string denotes. A string that its own quote closes (`IsClosed`)
is written with a backslash before each backslash and each quote of its value, and that text denotes the characters
of the value (`codePoints_escape`). The source denotes the same unless it names a character by its code point
(`codePoints_eq_iff`), since the reader takes the backslash off such an escape and keeps the digits.
-/

namespace ScssExtend.Lexer

open Text

/-! ## The meaning of a string -/

/-- A digit of a hexadecimal number, in upper or lower case. -/
def isHexDigit (c : Char) : Bool :=
  c.isDigit || ('a' ≤ c && c ≤ 'f') || ('A' ≤ c && c ≤ 'F')

/-- The number that a hex digit stands for. -/
def hexDigitValue (c : Char) : Nat :=
  if c.isDigit then c.toNat - '0'.toNat
  else if 'a' ≤ c then c.toNat - 'a'.toNat + 10
  else c.toNat - 'A'.toNat + 10

/-- The number that hex digits stand for. -/
def hexValue (digits : List Char) : Nat :=
  digits.foldl (fun n d => 16 * n + hexDigitValue d) 0

/-- The digits behind the first one of an escape by a code point; an escape has no more than six. -/
def moreDigits (cs : List Char) : List Char :=
  (cs.take 5).takeWhile isHexDigit

/-- Leaves out one white space, if there is one. -/
def skipSpace : List Char → List Char
  | [] => []
  | c :: cs => if isSpace c then cs else c :: cs

/-- The text behind an escape by a code point, where `cs` is the text behind its first digit. -/
def behindDigits (cs : List Char) : List Char :=
  skipSpace (cs.drop (moreDigits cs).length)

/-- Behind the first digit of an escape stand the others, then one white space at most. -/
lemma exists_behindDigits (cs : List Char) : ∃ ds, cs = ds ++ behindDigits cs ∧ moreDigits cs <+: ds ∧
    ∀ d ∈ ds, isHexDigit d ∨ isSpace d := by
  have hdigits (d : Char) (hd : d ∈ moreDigits cs) : isHexDigit d ∨ isSpace d := .inl (List.mem_takeWhile_imp hd)
  have hfront : moreDigits cs <+: cs := (List.takeWhile_prefix _).trans (List.take_prefix 5 cs)
  have heq := List.prefix_append_drop hfront
  unfold behindDigits
  generalize cs.drop (moreDigits cs).length = rest at heq ⊢
  cases rest with
  | nil => exact ⟨moreDigits cs, heq, List.prefix_rfl, hdigits⟩
  | cons c rest =>
    rw [skipSpace]
    split
    · next hc =>
      refine ⟨moreDigits cs ++ [c], by simpa using heq, List.prefix_append _ _, fun d hd => ?_⟩
      obtain hd | hd := List.mem_append.1 hd
      · exact hdigits d hd
      · exact .inr (List.mem_singleton.1 hd ▸ hc)
    · exact ⟨moreDigits cs, heq, List.prefix_rfl, hdigits⟩

/-- The text behind the digits of an escape is no longer than the one that begins with them. -/
lemma length_behindDigits_le (cs : List Char) : (behindDigits cs).length ≤ cs.length := by
  obtain ⟨ds, heq, -⟩ := exists_behindDigits cs
  have hlength := congrArg List.length heq
  rw [List.length_append] at hlength
  omega

/-- The code points that the text between the quotes of a string denotes. -/
def codePoints : List Char → List Nat
  | [] => []
  | c :: cs =>
    if c = '\\' then
      match cs with
      | [] => []
      | d :: ds =>
        if d = '\n' then codePoints ds
        else if isHexDigit d then
          have := length_behindDigits_le ds
          hexValue (d :: moreDigits ds) :: codePoints (behindDigits ds)
        else d.toNat :: codePoints ds
    else c.toNat :: codePoints cs
  termination_by cs => cs.length
  decreasing_by all_goals simp_all; try omega

/-- The text names a character by its code point: a backslash that is not escaped itself stands in front of a hex
digit. -/
def hasHexEscape : List Char → Bool
  | [] => false
  | c :: cs =>
    if c = '\\' then
      match cs with
      | [] => false
      | d :: ds => isHexDigit d || hasHexEscape ds
    else hasHexEscape cs

/-- A character that neither closes a string with this quote nor breaks it off. -/
def isBare (quote c : Char) : Bool :=
  c ≠ quote && c ≠ '\n'

/-- A string that its own quote closes, with `body` between the quotes. -/
structure IsClosed (quote : Char) (body text : List Char) : Prop where
  text_eq : text = quote :: (body ++ [quote])
  run : EscapedRun (isBare quote) body

/-! ## The characters of an escape -/

/-- The hex digits are three ranges of ASCII characters. -/
lemma isHexDigit_iff_toNat {c : Char} : isHexDigit c ↔
    48 ≤ c.toNat ∧ c.toNat ≤ 57 ∨ 97 ≤ c.toNat ∧ c.toNat ≤ 102 ∨ 65 ≤ c.toNat ∧ c.toNat ≤ 70 := by
  simp only [isHexDigit, Bool.or_eq_true, Bool.and_eq_true, decide_eq_true_eq, Char.isDigit_iff_toNat, or_assoc]
  rfl

/-- A digit stands for less than the number of its own character. -/
lemma hexDigitValue_lt {c : Char} (h : isHexDigit c) : hexDigitValue c < c.toNat := by
  rw [isHexDigit_iff_toNat] at h
  unfold hexDigitValue
  split
  · change c.toNat - 48 < _
    omega
  · split
    · change c.toNat - 97 + 10 < _
      omega
    · change c.toNat - 65 + 10 < _
      omega

/-! ## One character or escape at a time -/

/-- The empty text denotes nothing. -/
lemma codePoints_nil : codePoints [] = [] := by
  rw [codePoints]

/-- A character other than the backslash denotes itself. -/
lemma codePoints_plain {c : Char} (hc : c ≠ '\\') (cs : List Char) :
    codePoints (c :: cs) = c.toNat :: codePoints cs := by
  rw [codePoints.eq_def]
  exact if_neg hc

/-- An escaped line break denotes nothing. -/
lemma codePoints_newline (cs : List Char) : codePoints ('\\' :: '\n' :: cs) = codePoints cs := by
  rw [codePoints.eq_def]
  rfl

/-- An escape by a code point denotes it. -/
lemma codePoints_hex {d : Char} (hd : isHexDigit d) (cs : List Char) : codePoints ('\\' :: d :: cs) =
    hexValue (d :: moreDigits cs) :: codePoints (behindDigits cs) := by
  have hline : d ≠ '\n' := by
    rintro rfl
    exact absurd hd (by decide)
  rw [codePoints.eq_def]
  simp [hline, hd]

/-- An escape of another character denotes that character. -/
lemma codePoints_pair {d : Char} (hline : d ≠ '\n') (hd : isHexDigit d = false) (cs : List Char) :
    codePoints ('\\' :: d :: cs) = d.toNat :: codePoints cs := by
  rw [codePoints.eq_def]
  simp [hline, hd]

/-- A character other than the backslash names none by its code point. -/
lemma hasHexEscape_plain {c : Char} (hc : c ≠ '\\') (cs : List Char) :
    hasHexEscape (c :: cs) = hasHexEscape cs := by
  rw [hasHexEscape.eq_def]
  exact if_neg hc

/-- An escape names a character by its code point if a hex digit follows, and else the text behind it may. -/
lemma hasHexEscape_pair (d : Char) (cs : List Char) :
    hasHexEscape ('\\' :: d :: cs) = (isHexDigit d || hasHexEscape cs) := rfl

/-- A character that begins and ends strings. -/
def isQuote (c : Char) : Bool :=
  c = '"' || c = '\''

/-- Neither the characters of an escape nor a backslash are quotes. -/
lemma ne_of_isQuote {quote c : Char} (h : isQuote quote) (hc : isHexDigit c ∨ isSpace c ∨ c = '\\') :
    c ≠ quote := by
  rintro rfl
  simp only [isQuote, Bool.or_eq_true, decide_eq_true_eq] at h
  obtain rfl | rfl := h <;> exact absurd hc (by decide)

/-- A bare character is not the quote. -/
lemma ne_of_isBare {quote c : Char} (h : isBare quote c) : c ≠ quote :=
  of_decide_eq_true (Bool.and_eq_true_iff.1 h).1

/-- The characters of an escape are not backslashes. -/
lemma ne_backslash {c : Char} (hc : isHexDigit c ∨ isSpace c) : c ≠ '\\' := by
  rintro rfl
  exact absurd hc (by decide)

/-- A character that is neither the quote nor a backslash stays in the value. -/
lemma unescape_plain {quote c : Char} (hc : c ≠ quote) (hslash : c ≠ '\\') (cs : List Char) :
    unescape quote (c :: cs) = c :: unescape quote cs := by
  rw [unescape.eq_def]
  simp [hc, hslash]

/-- The text behind an escape is a run if the escape stands in one. -/
lemma escapedRun_behindDigits {plain : Char → Bool} {cs : List Char} (h : EscapedRun plain cs) :
    EscapedRun plain (behindDigits cs) := by
  obtain ⟨ds, heq, -, hds⟩ := exists_behindDigits cs
  rw [heq] at h
  generalize behindDigits cs = rest at h
  clear heq
  induction ds with
  | nil => exact h
  | cons d ds ih =>
    obtain ⟨hd, hds⟩ := List.forall_mem_cons.1 hds
    exact ih hds ((EscapedRun.cons_iff (ne_backslash hd)).1 h).2

section

variable {quote : Char} (hquote : isQuote quote)
include hquote

/-- An escaped line break is left out of the value. -/
lemma unescape_newline (cs : List Char) : unescape quote ('\\' :: '\n' :: cs) = unescape quote cs := by
  rw [unescape, if_neg (ne_of_isQuote hquote (.inr (.inr rfl))), if_pos rfl]
  exact if_pos rfl

/-- Of an escape of another character the value keeps the character. -/
lemma unescape_pair {d : Char} (hd : d ≠ '\n') (cs : List Char) :
    unescape quote ('\\' :: d :: cs) = d :: unescape quote cs := by
  rw [unescape, if_neg (ne_of_isQuote hquote (.inr (.inr rfl))), if_pos rfl]
  exact if_neg hd

/-- The digits of an escape and the white space behind them stay in the value. -/
lemma unescape_append {ds : List Char} (hds : ∀ d ∈ ds, isHexDigit d ∨ isSpace d) (cs : List Char) :
    unescape quote (ds ++ cs) = ds ++ unescape quote cs := by
  induction ds with
  | nil => rfl
  | cons d ds ih =>
    obtain ⟨hd, hds⟩ := List.forall_mem_cons.1 hds
    have hne : d ≠ quote := ne_of_isQuote hquote (or_assoc.1 (.inl hd))
    rw [List.cons_append, unescape_plain hne (ne_backslash hd), ih hds, List.cons_append]

/-! ## What is written -/

/-- The text that a string is written with denotes the characters of its value. -/
lemma codePoints_escape (value : List Char) :
    codePoints (Token.escape quote value) = value.map Char.toNat := by
  induction value with
  | nil => exact codePoints_nil
  | cons c value ih =>
    rw [Token.escape]
    split
    · next h =>
      have hhex : ¬isHexDigit c := fun hc =>
        h.elim (ne_backslash (.inl hc)) (ne_of_isQuote hquote (.inl hc))
      have hline : c ≠ '\n' := by
        rintro rfl
        exact h.elim (by decide) (ne_of_isQuote hquote (.inr (.inl rfl)))
      rw [codePoints_pair hline (Bool.eq_false_iff.2 hhex), ih, List.map_cons]
    · next h => rw [codePoints_plain (not_or.1 h).1, ih, List.map_cons]

/-- The digits of an escape by a code point stay in the value, with the white space behind them. -/
lemma exists_unescape_behindDigits (cs behind : List Char) : ∃ ds, moreDigits cs <+: ds ∧
    unescape quote (cs ++ behind) = ds ++ unescape quote (behindDigits cs ++ behind) := by
  obtain ⟨ds, heq, hfront, hds⟩ := exists_behindDigits cs
  refine ⟨ds, hfront, ?_⟩
  conv_lhs => rw [heq, List.append_assoc, unescape_append hquote hds]

/-- No string denotes more characters than its value has. -/
lemma length_codePoints_le {body : List Char} (h : EscapedRun (isBare quote) body) :
    (codePoints body).length ≤ (unescape quote (body ++ [quote])).length := by
  fun_induction codePoints body with
  | case1 => exact Nat.zero_le _
  | case2 => exact Nat.zero_le _
  | case3 cs ih =>
    rw [List.cons_append, List.cons_append, unescape_newline hquote]
    exact ih (EscapedRun.pair_iff.1 h)
  | case4 d ds hline hd _ ih =>
    obtain ⟨es, -, heq⟩ := exists_unescape_behindDigits hquote ds [quote]
    have hle := ih (escapedRun_behindDigits (EscapedRun.pair_iff.1 h))
    rw [List.cons_append, List.cons_append, unescape_pair hquote hline, heq, List.length_cons, List.length_cons,
      List.length_append]
    omega
  | case5 d ds hline hd ih =>
    rw [List.cons_append, List.cons_append, unescape_pair hquote hline]
    exact Nat.succ_le_succ (ih (EscapedRun.pair_iff.1 h))
  | case6 c cs hc ih =>
    obtain ⟨hplain, h⟩ := (EscapedRun.cons_iff hc).1 h
    have hne : c ≠ quote := ne_of_isBare hplain
    rw [List.cons_append, unescape_plain hne hc]
    exact Nat.succ_le_succ (ih h)

/-- An escape by a code point denotes something else than the digits that its value keeps. -/
lemma codePoints_hex_ne {d : Char} {cs : List Char} (hd : isHexDigit d)
    (h : EscapedRun (isBare quote) cs) :
    codePoints ('\\' :: d :: cs) ≠ (d :: unescape quote (cs ++ [quote])).map Char.toNat := by
  intro heq
  obtain ⟨ds, hfront, hvalue⟩ := exists_unescape_behindDigits hquote cs [quote]
  have hle := length_codePoints_le hquote (escapedRun_behindDigits h)
  rw [codePoints_hex hd, List.map_cons, hvalue] at heq
  obtain ⟨hhead, htail⟩ := List.cons.inj heq
  -- as many code points as characters leave no room for a second digit, and one digit is less than its character
  have hlength := congrArg List.length htail
  rw [List.length_map, List.length_append] at hlength
  have hnil : ds = [] := List.length_eq_zero_iff.1 (by omega)
  rw [hnil, List.prefix_nil] at hfront
  have hlt := hexDigitValue_lt hd
  rw [hfront] at hhead
  simp only [hexValue, List.foldl_cons, List.foldl_nil] at hhead
  omega

/-- A string denotes the characters of its value if it names none by a code point. -/
lemma codePoints_eq_iff {body : List Char} (h : EscapedRun (isBare quote) body) :
    codePoints body = (unescape quote (body ++ [quote])).map Char.toNat ↔ hasHexEscape body = false := by
  induction h with
  | nil => simp [codePoints_nil, unescape.eq_def quote [quote], hasHexEscape]
  | @plain c cs hplain hc _ ih =>
    have hne : c ≠ quote := ne_of_isBare hplain
    rw [List.cons_append, unescape_plain hne hc, codePoints_plain hc, List.map_cons, List.cons_inj_right, ih,
      hasHexEscape_plain hc]
  | @escape d cs hrun ih =>
    rw [List.cons_append, List.cons_append]
    by_cases hline : d = '\n'
    · subst hline
      rw [unescape_newline hquote, codePoints_newline, ih, hasHexEscape_pair, Bool.or_eq_false_iff]
      exact (and_iff_right (by decide)).symm
    rw [unescape_pair hquote hline, hasHexEscape_pair]
    cases hd : isHexDigit d with
    | true => exact iff_of_false (codePoints_hex_ne hquote hd hrun) Bool.noConfusion
    | false => rw [codePoints_pair hline hd, List.map_cons, List.cons_inj_right, ih, Bool.false_or]

end

/-! ## The strings of a source text -/

/-- An escaped value without line breaks stands between quotes as a whole. -/
lemma escapedRun_escape {quote : Char} {value : List Char} (h : '\n' ∉ value) :
    EscapedRun (isBare quote) (Token.escape quote value) := by
  induction value with
  | nil => exact .nil
  | cons c value ih =>
    obtain ⟨hc, hvalue⟩ := not_or.1 (mt List.mem_cons.2 h)
    rw [Token.escape]
    split
    · exact .escape (ih hvalue)
    · next h =>
      obtain ⟨hslash, hne⟩ := not_or.1 h
      exact .plain (by simp [isBare, hne, Ne.symm hc]) hslash (ih hvalue)

/-- A lexeme is the end of the input, or a token read from its slice. -/
lemma lexeme_cases {cs : List Char} {l : Lexeme} (hl : l ∈ lexemes cs) :
    l.token = .eof ∨ ∃ c rest, l.token = (readToken c rest).token ∧ l.slice = (readToken c rest).slice := by
  induction cs using lexemes.induct with
  | case1 cs gap h =>
    rw [lexemes_of_spanComments_nil h, List.mem_singleton] at hl
    exact .inl (by rw [hl])
  | case2 cs gap c rest h reading _ ih =>
    rw [lexemes_of_spanComments_cons h, List.mem_cons] at hl
    obtain rfl | hl := hl
    · exact .inr ⟨c, rest, rfl, rfl⟩
    · exact ih hl

/-- The value of a closed string, and its slice. -/
lemma string_of_mem_lexemes {cs : List Char} {l : Lexeme} {value : String} {quote : Char} {body : List Char}
    (hl : l ∈ lexemes cs) (htoken : l.token = .string value quote) (hclosed : IsClosed quote body l.slice) :
    isQuote quote ∧ value.toList = unescape quote (body ++ [quote]) ∧ '\n' ∉ value.toList := by
  obtain heof | ⟨c, rest, hread, hslice⟩ := lexeme_cases hl
  · rw [htoken] at heof
    cases heof
  have hreads := readsAs_readToken c rest
  rw [htoken] at hread
  rw [hclosed.text_eq] at hslice
  generalize readToken c rest = reading at hread hslice hreads
  cases hreads with
  | @string raw rest' hc hraw =>
    cases hread
    obtain ⟨-, rfl⟩ := List.cons.inj hslice
    have hline := newline_not_mem_unescape quote rest
    rw [hraw] at hline
    exact ⟨by simpa [isQuote] using hc, by simp, by simpa using hline⟩
  | lone =>
    have hverbatim := isVerbatim_lone c
    dsimp only at hread
    rw [← hread] at hverbatim
    cases hverbatim
  | _ => cases hread

/-- A string that its own quote closes is written as one that denotes the same code points exactly if it names no
character by its code point. -/
theorem codePoints_text_iff (source : String) {l : Lexeme} {value : String} {quote : Char} {body : List Char}
    (hl : l ∈ lexemes source.toList) (htoken : l.token = .string value quote)
    (hclosed : IsClosed quote body l.slice) :
    ∃ written, IsClosed quote written l.token.text.toList ∧
      (codePoints written = codePoints body ↔ hasHexEscape body = false) := by
  obtain ⟨hquote, hvalue, hline⟩ := string_of_mem_lexemes hl htoken hclosed
  refine ⟨Token.escape quote value.toList, ⟨by simp [htoken, Token.text], escapedRun_escape hline⟩, ?_⟩
  rw [codePoints_escape hquote, hvalue, ← codePoints_eq_iff hquote hclosed.run]
  exact eq_comm

/-- An escaped quote and an escaped newline. -/
theorem codePoints_text_iff_quote_newline : ∃ l ∈ lexemes "'it\\'s\\\n'".toList,
    l.token = .string "it's" '\'' ∧ IsClosed '\'' "it\\'s\\\n".toList l.slice ∧
    ∃ written, IsClosed '\'' written l.token.text.toList ∧
      codePoints written = codePoints "it\\'s\\\n".toList := by
  obtain ⟨l, hl, htoken, hslice⟩ : ∃ l ∈ lexemes "'it\\'s\\\n'".toList,
      l.token = .string "it's" '\'' ∧ l.slice = '\'' :: ("it\\'s\\\n".toList ++ ['\'']) := by
    decide +kernel
  have hclosed : IsClosed '\'' "it\\'s\\\n".toList l.slice := ⟨hslice, by decide⟩
  obtain ⟨written, hwritten, hiff⟩ := codePoints_text_iff "'it\\'s\\\n'" hl htoken hclosed
  exact ⟨l, hl, htoken, hclosed, written, hwritten, hiff.2 (by decide +kernel)⟩

/-- The string of this source denotes the letter A, named by its code point, and is written as two digits. -/
theorem exists_codePoints_text_ne : ¬∀ (source : String) (l : Lexeme) (value : String) (quote : Char)
    (body written : List Char), l ∈ lexemes source.toList → l.token = .string value quote →
    IsClosed quote body l.slice → IsClosed quote written l.token.text.toList →
    codePoints written = codePoints body := by
  intro h
  obtain ⟨l, hl, htoken, hslice⟩ : ∃ l ∈ lexemes "\"\\41\"".toList,
      l.token = .string "41" '"' ∧ l.slice = '"' :: (['\\', '4', '1'] ++ ['"']) := by
    decide +kernel
  have htext : l.token.text.toList = '"' :: (['4', '1'] ++ ['"']) := by
    rw [htoken]
    decide
  have heq := h "\"\\41\"" l "41" '"' ['\\', '4', '1'] ['4', '1'] hl htoken ⟨hslice, by decide⟩
    ⟨htext, by decide⟩
  rw [codePoints_plain (by decide), codePoints_plain (by decide), codePoints_hex (by decide)] at heq
  exact absurd (List.cons.inj heq).1 (by decide)

end ScssExtend.Lexer
