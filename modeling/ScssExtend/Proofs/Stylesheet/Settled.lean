import ScssExtend.Proofs.Selector.Stability
import ScssExtend.Proofs.Stylesheet.Steps
import ScssExtend.Proofs.Token.Locality
import ScssExtend.Stylesheet.Printer

/-!
# Printed texts whose tokens stand apart

The printer writes the texts of a stylesheet beside braces, semicolons and colons of its own. A text is settled when it
is written with tokens that are all apart from what stands behind them there (`Printer.IsWritten`) and that close their
brackets; only the names of declarations may leave some open, and then no text may close one that it has not opened
(`Stylesheet.IsSettled`). A settled text shows in the tokens of the print with just these tokens
(`Printer.tokensOf_prelude`, `Printer.tokensOf_atRule`, `Printer.tokensOf_declaration`).
-/

namespace ScssExtend

/-! ## Settled texts -/

namespace Printer

open Lexer Prelude Text

/-- The text is written with these tokens, each of which is apart from the texts of the later ones and of `behind`, and
no blank was trimmed off at its ends. -/
structure IsWritten (behind text : String) (us : List Token) : Prop where
  text_eq : Token.concatText us = text
  read : ∀ u ∈ us, IsRead u
  apart : standApart behind.toList us
  trimmed : IsTrimmed text.toList

/-- What the printer writes behind a prelude, in front of a block or without one. -/
def behindPrelude (block : Bool) : String :=
  if block then " \x7b" else ";"

/-- What the printer writes between the value of a declaration and the next line. -/
def behindValue (important : Bool) : String :=
  if important then " !important;" else ";"

/-- The text is that of a prelude, and its tokens stand apart. -/
def IsSettledPrelude (opens block : Bool) (text : String) : Prop :=
  ∃ us, IsWritten (behindPrelude block) text us ∧ ClosesBrackets opens us

/-- The text can stand in front of a block without a name, and its tokens stand apart. -/
def IsSettledHeader (opens : Bool) (text : String) : Prop :=
  ∃ us, IsWritten (behindPrelude true) text us ∧ ClosesBrackets opens us ∧ us.head?.all Parser.isPlain

/-- What the printer writes behind the name of an at-rule. -/
def atText (preludeText : String) : String :=
  if preludeText.isEmpty then "" else " " ++ preludeText

/-- The name of the at-rule is apart from the prelude, whose tokens stand apart. -/
def IsSettledAtRule (opens block : Bool) (name preludeText : String) : Prop :=
  IsRead (.atKeyword name) ∧ isApart ((atText preludeText).toList ++ (behindPrelude block).toList) (.atKeyword name) ∧
    IsSettledPrelude opens block preludeText

/-- The tokens of the name stand apart in front of the colon, and those of the value in front of the flag and the
semicolon. The brackets of the value are closed; those of the name may be closed in the value, or nowhere at all. -/
def IsSettledDeclaration (opens : Bool) (name value : String) (important : Bool) : Prop :=
  ∃ ns vs, IsWritten ":" name ns ∧ IsWritten (behindValue important) value vs ∧ ns.head?.all Parser.isPlain ∧
    (∀ n ∈ ns, n ≠ .colon ∧ Parser.endsName n = false) ∧ isPrelude 0 vs ∧
    (important ∨ (stripFlag "important" vs).2 = false) ∧
    if opens then (depthBehind? 0 (ns ++ vs)).isSome ∧ closesNothing 0 (ns ++ vs) else isPrelude 0 (ns ++ vs)

end Printer

mutual

/-- The texts of the statement are settled, and attribute values in its selectors are read back as they are; a
directive is not printed. Names of declarations may leave brackets open if `opens`. -/
def Statement.IsSettled (opens : Bool) : Statement → Prop
  | .rule selector body _ => Printer.IsSettledHeader opens selector.text ∧
    (∀ s ∈ selector.components, s.IsStable) ∧ Statement.BodySettled opens body
  | .media query body _ => Printer.IsSettledPrelude opens true query ∧ Statement.BodySettled opens body
  | .keyframe step body _ => Printer.IsSettledHeader opens step ∧ Statement.BodySettled opens body
  | .atRule name preludeText _ => Printer.IsSettledAtRule opens false name preludeText
  | .atBlock name preludeText body _ =>
    Printer.IsSettledAtRule opens true name preludeText ∧ Statement.BodySettled opens body
  | .declaration name value important _ => Printer.IsSettledDeclaration opens name value important
  | .extend .. => True

/-- The texts in the block are settled. -/
def Statement.BodySettled (opens : Bool) : List Statement → Prop
  | [] => True
  | s :: ss => s.IsSettled opens ∧ Statement.BodySettled opens ss

end

/-- The texts of the stylesheet are settled. -/
def Stylesheet.IsSettled (sheet : Stylesheet) : Prop :=
  ∃ opens, Statement.BodySettled opens sheet.statements

/-! ## The tokens of a settled text -/

namespace Lexer

open Prelude Text

/-- A punctuation character is read as its token whatever follows. -/
lemma tokensOf_punctuation {c : Char} {t : Token} (h : punctuation? c = some t) (cs : List Char) :
    tokensOf (c :: cs) = t :: tokensOf cs := by
  have hslash : c ≠ '/' := by
    rintro rfl
    cases h
  rw [tokensOf_cons (spanComment_of_ne hslash cs), readToken_eq_iff.2 (.lone (isLone_of_punctuation h cs)), h]
  rfl

/-- One more space in front of a text shows in its tokens at most as one more token. -/
lemma exists_tokensOf_space {cs : List Char} {us vs : List Token} {t : Token} (h : tokensOf cs = us ++ t :: vs) :
    ∃ us', tokensOf (' ' :: cs) = us' ++ t :: vs ∧ (us' = us ∨ us' = .whitespace :: us) := by
  rw [tokensOf_space (by decide)]
  cases cs with
  | nil => exact ⟨.whitespace :: us, congrArg _ h, .inr rfl⟩
  | cons c cs =>
    by_cases hc : isSpace c
    · rw [List.dropWhile_cons_of_pos hc, ← tokensOf_space hc, h]
      exact ⟨us, rfl, .inl rfl⟩
    · rw [List.dropWhile_cons_of_neg hc, h]
      exact ⟨.whitespace :: us, rfl, .inr rfl⟩

/-- One space in front makes no difference to the tokens behind the leading space. -/
lemma lead_space {c : Char} (h : isSpace c) (cs : List Char) : lead (tokensOf (c :: cs)) = lead (tokensOf cs) := by
  have hskip : lead (tokensOf (c :: cs)) = lead (tokensOf (cs.dropWhile isSpace)) := by
    simp [tokensOf_space h, lead]
  rw [hskip]
  cases cs with
  | nil => rfl
  | cons d ds =>
    by_cases hd : isSpace d
    · rw [List.dropWhile_cons_of_pos hd, tokensOf_space hd]
      simp [lead]
    · rw [List.dropWhile_cons_of_neg hd]

/-- Spaces in front make no difference to the tokens behind the leading space. -/
lemma lead_spaces {spaces : List Char} (h : ∀ c ∈ spaces, isSpace c) (cs : List Char) :
    lead (tokensOf (spaces ++ cs)) = lead (tokensOf cs) := by
  induction spaces with
  | nil => rfl
  | cons c spaces ih =>
    obtain ⟨hc, hspaces⟩ := List.forall_mem_cons.1 h
    rw [List.cons_append, lead_space hc, ih hspaces]

end Lexer

namespace Printer

open Lexer Prelude Text

variable {behind text : String} {us : List Token}

/-- The end of the input is none of the tokens that a text is written with. -/
lemma IsWritten.eof_not_mem (h : IsWritten behind text us) : .eof ∉ us :=
  fun hmem => (h.read _ hmem).ne_eof rfl

/-- The tokens are displayed as the text that is written with them. -/
lemma IsWritten.serialize_eq (h : IsWritten behind text us) : serialize us = text := by
  rw [← String.toList_inj, toList_serialize, h.text_eq, trim_eq_self h.trimmed]

/-- In front of what it was written for, the text is read as its tokens, whatever stands behind that. -/
lemma IsWritten.tokensOf_append (h : IsWritten behind text us) {mark : Char} (hmark : isMark mark) (cs : List Char)
    (hbehind : behind.toList = cs ++ [mark]) (tail : List Char) :
    tokensOf (text.toList ++ (cs ++ mark :: tail)) = us ++ tokensOf (cs ++ mark :: tail) := by
  have hapart := h.apart
  rw [hbehind, standApart_mark hmark hmark cs [] tail] at hapart
  rw [← h.text_eq, tokensOf_standApart h.read hapart]

/-- The token that ends a prelude. -/
def stopToken (block : Bool) : Token :=
  if block then .leftBrace else .semicolon

/-- A settled prelude is read as its tokens, up to the brace or semicolon behind it. -/
lemma tokensOf_prelude (block : Bool) (h : IsWritten (behindPrelude block) text us) (tail : List Char) :
    ∃ us', tokensOf (text.toList ++ ((behindPrelude block).toList ++ tail)) = us' ++ stopToken block :: tokensOf tail ∧
      Pads us us' := by
  cases block with
  | false =>
    refine ⟨us, ?_, .refl⟩
    have htokens := h.tokensOf_append (rfl : isMark ';') [] rfl tail
    rwa [List.nil_append, tokensOf_punctuation (by rfl)] at htokens
  | true =>
    refine ⟨us ++ [.whitespace], ?_, .behind .refl⟩
    have htokens := h.tokensOf_append (rfl : isMark '{') [' '] rfl tail
    have hspace : tokensOf (' ' :: '{' :: tail) = .whitespace :: .leftBrace :: tokensOf tail := by
      rw [tokensOf_space (by decide), List.dropWhile_cons_of_neg (by decide), tokensOf_punctuation (by rfl)]
    rw [List.singleton_append, hspace] at htokens
    rw [List.append_assoc]
    exact htokens

/-- A space may stand in front of a settled prelude. -/
lemma tokensOf_space_prelude (block : Bool) (h : IsWritten (behindPrelude block) text us) (tail : List Char) :
    ∃ us', tokensOf (' ' :: (text.toList ++ ((behindPrelude block).toList ++ tail))) =
      us' ++ stopToken block :: tokensOf tail ∧ Pads us us' := by
  obtain ⟨us', htokens, hpads⟩ := tokensOf_prelude block h tail
  obtain ⟨us'', htokens', rfl | rfl⟩ := exists_tokensOf_space htokens
  · exact ⟨us'', htokens', hpads⟩
  · exact ⟨_, htokens', hpads.front⟩

/-- The header of an at-rule is its name and the text behind that. -/
lemma atHeader_eq (name preludeText : String) : atHeader name preludeText = "@" ++ name ++ atText preludeText := by
  unfold atHeader atText
  split
  · exact String.append_empty.symm
  · exact String.append_assoc

/-- A settled at-rule is read as its name and its prelude. -/
lemma tokensOf_atRule (block : Bool) {name preludeText : String} (hread : IsRead (.atKeyword name))
    (hapart : isApart ((atText preludeText).toList ++ (behindPrelude block).toList) (.atKeyword name))
    (h : IsWritten (behindPrelude block) preludeText us) (tail : List Char) :
    ∃ us', tokensOf ((atHeader name preludeText).toList ++ ((behindPrelude block).toList ++ tail)) =
      .atKeyword name :: (us' ++ stopToken block :: tokensOf tail) ∧ Pads us us' := by
  have hkeyword : tokensOf ((atHeader name preludeText).toList ++ ((behindPrelude block).toList ++ tail)) =
      .atKeyword name :: tokensOf ((atText preludeText).toList ++ ((behindPrelude block).toList ++ tail)) := by
    have hapart' : isApart ((atText preludeText).toList ++ ((behindPrelude block).toList ++ tail))
        (.atKeyword name) := by
      cases block with
      | false => exact (isApart_mark (rfl : isMark ';') (rfl : isMark ';') _ tail [] _).trans hapart
      | true =>
        have hmark := isApart_mark (rfl : isMark '{') (rfl : isMark '{') ((atText preludeText).toList ++ [' ']) tail []
          (.atKeyword name)
        simp only [List.append_assoc] at hmark
        exact hmark.trans hapart
    have htext : (atHeader name preludeText).toList =
        (Token.atKeyword name).text.toList ++ (atText preludeText).toList := by
      rw [atHeader_eq, String.toList_append]
      rfl
    rw [htext, List.append_assoc, tokensOf_isApart hread hapart']
  rw [hkeyword]
  by_cases hempty : preludeText.isEmpty
  · obtain ⟨us', htokens, hpads⟩ := tokensOf_prelude block h tail
    rw [String.isEmpty_iff.1 hempty] at htokens
    exact ⟨us', by simpa [atText, hempty] using htokens, hpads⟩
  · obtain ⟨us', htokens, hpads⟩ := tokensOf_space_prelude block h tail
    exact ⟨us', by simpa [atText, hempty] using htokens, hpads⟩

/-- A settled query is read behind its keyword. -/
lemma tokensOf_media {query : String} (h : IsWritten (behindPrelude true) query us) (tail : List Char) :
    ∃ us', tokensOf (("@media " ++ query).toList ++ (' ' :: '{' :: tail)) =
      .atKeyword "media" :: (us' ++ .leftBrace :: tokensOf tail) ∧ Pads us us' := by
  obtain ⟨us', htokens, hpads⟩ := tokensOf_space_prelude true h tail
  refine ⟨us', ?_, hpads⟩
  have hread : IsRead (.atKeyword "media") := ⟨'@', "media".toList, by decide +kernel⟩
  have hapart (cs : List Char) : isApart (' ' :: cs) (.atKeyword "media") := rfl
  have htext : ("@media " ++ query).toList ++ (' ' :: '{' :: tail) = (Token.atKeyword "media").text.toList ++
      ' ' :: (query.toList ++ ((behindPrelude true).toList ++ tail)) := by
    simp [Token.text, behindPrelude]
  rw [htext, tokensOf_isApart hread (hapart _), htokens]
  rfl

/-- The tokens of the flag of a declaration. -/
def flagTokens (important : Bool) : List Token :=
  if important then [.whitespace, .delim '!', .ident "important"] else []

/-- The flag is read as its tokens, up to the semicolon. -/
lemma tokensOf_flag (tail : List Char) : tokensOf (" !important".toList ++ ';' :: tail) =
    flagTokens true ++ .semicolon :: tokensOf tail := by
  have hread : ∀ t ∈ flagTokens true, IsRead t := by
    simp only [flagTokens, if_true, List.forall_mem_cons]
    exact ⟨⟨' ', [], by decide⟩, ⟨'!', [], by decide⟩, ⟨'i', "mportant".toList, by decide +kernel⟩,
      List.forall_mem_nil _⟩
  have hapart : standApart (';' :: tail) (flagTokens true) := by
    rw [← List.nil_append (';' :: tail), standApart_mark rfl (rfl : isMark ';') [] tail []]
    decide +kernel
  have htext : (Token.concatText (flagTokens true)).toList = " !important".toList := by decide +kernel
  rw [← htext, tokensOf_standApart hread hapart, tokensOf_punctuation (by rfl)]

/-- A settled declaration is read as the tokens of its name, a colon, the tokens of its value and its flag. -/
lemma tokensOf_declaration {name value : String} {important : Bool} {ns vs : List Token}
    (hname : IsWritten ":" name ns) (hvalue : IsWritten (behindValue important) value vs) (tail : List Char) :
    ∃ vs', tokensOf ((declaration name value important).toList ++ tail) =
      ns ++ .colon :: (vs' ++ .semicolon :: tokensOf tail) ∧
        (vs' = vs ++ flagTokens important ∨ vs' = .whitespace :: (vs ++ flagTokens important)) := by
  have htokens : tokensOf (value.toList ++ ((behindValue important).toList ++ tail)) =
      vs ++ flagTokens important ++ .semicolon :: tokensOf tail := by
    cases important with
    | false =>
      have htokens := hvalue.tokensOf_append (rfl : isMark ';') [] rfl tail
      rw [List.nil_append, tokensOf_punctuation (by rfl)] at htokens
      rw [flagTokens, if_neg Bool.false_ne_true, List.append_nil]
      exact htokens
    | true =>
      have htokens := hvalue.tokensOf_append (rfl : isMark ';') " !important".toList rfl tail
      rw [List.append_assoc, ← tokensOf_flag tail]
      exact htokens
  obtain ⟨vs', hspace, hvs'⟩ := exists_tokensOf_space htokens
  refine ⟨vs', ?_, hvs'⟩
  have htext : (declaration name value important).toList ++ tail = name.toList ++
      ([] ++ ':' :: ' ' :: (value.toList ++ ((behindValue important).toList ++ tail))) := by
    cases important <;> simp [declaration, behindValue]
  rw [htext, hname.tokensOf_append (rfl : isMark ':') [] rfl, List.nil_append, tokensOf_punctuation (by rfl), hspace]

section Brackets

variable {ns vs vs' : List Token} {important : Bool}
  (h : vs' = vs ++ flagTokens important ∨ vs' = .whitespace :: (vs ++ flagTokens important))
include h

/-- The space in front of the value and the flag have nothing to do with brackets, and neither has the colon. -/
lemma brackets_printed : brackets vs' = brackets vs := by
  have hflag : brackets (flagTokens important) = [] := by cases important <;> rfl
  obtain rfl | rfl := h
  · rw [brackets_append, hflag, List.append_nil]
  · rw [brackets_cons rfl, brackets_append, hflag, List.append_nil]

/-- A declaration has the brackets of its name and of its value. -/
lemma brackets_declaration (ns : List Token) : brackets (ns ++ .colon :: vs') = brackets (ns ++ vs) := by
  rw [brackets_append, brackets_cons rfl, brackets_printed h, brackets_append]

/-- The end of the input is not among the tokens of a declaration. -/
lemma eof_not_mem_declaration (hns : .eof ∉ ns) (hvs : .eof ∉ vs) : .eof ∉ ns ++ .colon :: vs' := by
  have hflag : Token.eof ∉ flagTokens important := by cases important <;> decide
  obtain rfl | rfl := h <;> simp [hns, hvs, hflag]

end Brackets

/-! ## Brackets in the printed text -/

/-- A margin is made of spaces. -/
lemma isSpace_margin (level : Nat) : ∀ c ∈ (margin level).toList, isSpace c := by
  intro c hc
  rw [margin, String.toList_ofList] at hc
  rw [List.eq_of_mem_replicate hc]
  rfl

/-- A space in front does not open a block. -/
lemma neverOpens_space {c : Char} (h : isSpace c) {cs : List Char} :
    NeverOpens (tokensOf (c :: cs)) ↔ NeverOpens (tokensOf cs) := by
  rw [← neverOpens_lead, lead_space h, neverOpens_lead]

/-- A margin in front does not open a block. -/
lemma neverOpens_margin (level : Nat) {cs : List Char} :
    NeverOpens (tokensOf ((margin level).toList ++ cs)) ↔ NeverOpens (tokensOf cs) := by
  rw [← neverOpens_lead, lead_spaces (isSpace_margin level), neverOpens_lead]

/-- What is written behind the brace that opens a block. -/
def blockTail (level : Nat) (contents : String) : List Char :=
  if contents.isEmpty then ['}', '\n'] else '\n' :: (contents.toList ++ ((margin level).toList ++ ['}', '\n']))

/-- A printed block, character by character. -/
lemma toList_block (level : Nat) (header contents : String) : (block level header contents).toList =
    (margin level).toList ++ (header.toList ++ ' ' :: '{' :: blockTail level contents) := by
  unfold block blockTail
  split <;> simp [line]

/-- White space apart, the contents of a block stand behind its opening brace, and the closing one behind them. -/
lemma lead_blockTail (level : Nat) (contents : String) (cs : List Char) :
    lead (tokensOf (blockTail level contents ++ cs)) =
      lead (tokensOf (contents.toList ++ ((margin level).toList ++ '}' :: '\n' :: cs))) := by
  unfold blockTail
  split
  · next hempty =>
    rw [String.isEmpty_iff] at hempty
    subst hempty
    rw [String.toList_empty, List.nil_append, lead_spaces (isSpace_margin level)]
    rfl
  · rw [List.cons_append, lead_space rfl]
    simp

/-- A closing brace on a line of its own does not open a block. -/
lemma neverOpens_closing (level : Nat) {cs : List Char} (hcs : NeverOpens (tokensOf cs)) :
    NeverOpens (tokensOf ((margin level).toList ++ '}' :: '\n' :: cs)) := by
  rw [neverOpens_margin, tokensOf_punctuation (by rfl)]
  exact ((neverOpens_space rfl).2 hcs).cons rfl (by simp)

/-- A block whose header and contents close no bracket from before them does not either. -/
lemma neverOpens_blockTail {level : Nat} {contents : String} {cs : List Char} (hcs : NeverOpens (tokensOf cs))
    (hcontents : ∀ cs', NeverOpens (tokensOf cs') → NeverOpens (tokensOf (contents.toList ++ cs'))) :
    NeverOpens (tokensOf (blockTail level contents ++ cs)) := by
  rw [← neverOpens_lead, lead_blockTail, neverOpens_lead]
  exact hcontents _ (neverOpens_closing level hcs)

/-- The tokens of a settled prelude keep what stands behind it inside of all brackets from before it. -/
lemma neverOpens_tokens (block : Bool) {us' tail : List Token} (hwritten : IsWritten (behindPrelude block) text us)
    (hclosed : ClosesBrackets true us) (hpads : Pads us us') (htail : NeverOpens tail) :
    NeverOpens (us' ++ stopToken block :: tail) := by
  have hstop : NeverOpens (stopToken block :: tail) := by
    cases block <;> exact htail.cons rfl (by simp [stopToken])
  refine hstop.append ?_ fun heof => ?_
  · rw [closesNothing_congr hpads.brackets_eq]
    exact hclosed.2 rfl
  · exact (hpads.mem heof).elim hwritten.eof_not_mem (by simp)

section NeverOpens

variable {tail : List Char} (htail : NeverOpens (tokensOf tail))
include htail

/-- A settled header does not open a block in front of it. -/
lemma neverOpens_header (h : IsSettledHeader true text) :
    NeverOpens (tokensOf (text.toList ++ (' ' :: '{' :: tail))) := by
  obtain ⟨us, hwritten, hclosed, -⟩ := h
  obtain ⟨us', htokens, hpads⟩ := tokensOf_prelude true hwritten tail
  have hopens := neverOpens_tokens true hwritten hclosed hpads htail
  rwa [← htokens] at hopens

/-- A settled media query does not open a block in front of it. -/
lemma neverOpens_media {query : String} (h : IsSettledPrelude true true query) :
    NeverOpens (tokensOf (("@media " ++ query).toList ++ (' ' :: '{' :: tail))) := by
  obtain ⟨us, hwritten, hclosed⟩ := h
  obtain ⟨us', htokens, hpads⟩ := tokensOf_media hwritten tail
  rw [htokens]
  exact (neverOpens_tokens true hwritten hclosed hpads htail).cons rfl (by simp)

/-- A settled at-rule does not open a block in front of it. -/
lemma neverOpens_atRule {block : Bool} {name preludeText : String} (h : IsSettledAtRule true block name preludeText) :
    NeverOpens (tokensOf ((atHeader name preludeText).toList ++ ((behindPrelude block).toList ++ tail))) := by
  obtain ⟨hread, hapart, us, hwritten, hclosed⟩ := h
  obtain ⟨us', htokens, hpads⟩ := tokensOf_atRule block hread hapart hwritten tail
  rw [htokens]
  exact (neverOpens_tokens block hwritten hclosed hpads htail).cons rfl (by simp)

/-- A settled declaration does not open a block in front of it. -/
lemma neverOpens_declaration {name value : String} {important : Bool}
    (h : IsSettledDeclaration true name value important) :
    NeverOpens (tokensOf ((declaration name value important).toList ++ tail)) := by
  obtain ⟨ns, vs, hname, hvalue, -, -, -, -, -, hcloses⟩ := h
  obtain ⟨vs', htokens, hvs'⟩ := tokensOf_declaration hname hvalue tail
  have hsplit : ns ++ .colon :: (vs' ++ .semicolon :: tokensOf tail) =
      ns ++ .colon :: vs' ++ .semicolon :: tokensOf tail := by simp
  rw [htokens, hsplit]
  refine (htail.cons rfl (by simp)).append ?_ ?_
  · rwa [closesNothing_congr (brackets_declaration hvs' ns)]
  · exact eof_not_mem_declaration hvs' hname.eof_not_mem hvalue.eof_not_mem

end NeverOpens

end Printer

namespace Statement

open Lexer Prelude Printer

variable {cs : List Char}

mutual

/-- Where names of declarations may leave brackets open, no printed statement closes them. -/
theorem neverOpens_print : ∀ (s : Statement) (level : Nat) {cs : List Char}, s.IsSettled true →
    NeverOpens (tokensOf cs) → NeverOpens (tokensOf ((s.print level).toList ++ cs))
  | .rule selector body _, level, cs, ⟨hheader, _, hbody⟩, hcs => by
    rw [print]
    split
    · exact hcs
    · rw [toList_block]
      simp only [List.append_assoc, List.cons_append]
      refine (neverOpens_margin level).2 (neverOpens_header (neverOpens_blockTail hcs fun cs' hcs' => ?_) hheader)
      exact neverOpens_printBody body (level + 1) hbody hcs'
  | .media query body _, level, cs, ⟨hquery, hbody⟩, hcs => by
    rw [print, toList_block]
    simp only [List.append_assoc, List.cons_append]
    refine (neverOpens_margin level).2 (neverOpens_media (neverOpens_blockTail hcs fun cs' hcs' => ?_) hquery)
    exact neverOpens_printBody body (level + 1) hbody hcs'
  | .keyframe step body _, level, cs, ⟨hheader, hbody⟩, hcs => by
    rw [print, toList_block]
    simp only [List.append_assoc, List.cons_append]
    refine (neverOpens_margin level).2 (neverOpens_header (neverOpens_blockTail hcs fun cs' hcs' => ?_) hheader)
    exact neverOpens_printBody body (level + 1) hbody hcs'
  | .atRule name preludeText _, level, cs, hatRule, hcs => by
    rw [print, line]
    simp only [String.toList_append, List.append_assoc]
    have hline := neverOpens_atRule ((neverOpens_space (c := '\n') rfl).2 hcs) hatRule
    exact (neverOpens_margin level).2 hline
  | .atBlock name preludeText body _, level, cs, ⟨hatRule, hbody⟩, hcs => by
    rw [print, toList_block]
    simp only [List.append_assoc, List.cons_append]
    refine (neverOpens_margin level).2 (neverOpens_atRule (neverOpens_blockTail hcs fun cs' hcs' => ?_) hatRule)
    exact neverOpens_printBody body (level + 1) hbody hcs'
  | .declaration name value important _, level, cs, hdeclaration, hcs => by
    rw [print, line]
    simp only [String.toList_append, List.append_assoc]
    exact (neverOpens_margin level).2 (neverOpens_declaration ((neverOpens_space rfl).2 hcs) hdeclaration)
  | .extend .., _, _, _, hcs => hcs

/-- Printed statements do not open a block in front of them. -/
theorem neverOpens_printBody : ∀ (ss : List Statement) (level : Nat) {cs : List Char}, BodySettled true ss →
    NeverOpens (tokensOf cs) → NeverOpens (tokensOf ((printBody level ss).toList ++ cs))
  | [], _, _, _, hcs => hcs
  | s :: ss, level, cs, ⟨hs, hss⟩, hcs => by
    rw [printBody, String.toList_append, List.append_assoc]
    exact neverOpens_print s level hs (neverOpens_printBody ss level hss hcs)

end

end Statement

end ScssExtend
