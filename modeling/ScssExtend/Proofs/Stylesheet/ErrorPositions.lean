import ScssExtend.Proofs.Stylesheet.Consumption
import ScssExtend.Proofs.Token.Reading

/-!
# Where errors are reported

Tokens carry the places where they stand in the source, and an error is reported at one of them or, when a selector is
at fault, at a place counted over the text of the selector from where this begins (`Parser.BeginsSelector`). The text is
put together from tokens and need not be as long as what they were read from: comments and line breaks are gone from
it, and a string that nobody closed has its quote. So the position of an error is a place of the source
(`Position.IsIn`) except where the text in front of the fault is longer than the rest of the line that the selector
begins on, or has a line break itself (`Stylesheet.isIn_or_isMiscounted_of_parse`).
-/

namespace ScssExtend

/-- The place of a character of the text, or of its end. -/
def Position.IsIn (p : Position) (cs : List Char) : Prop :=
  ∃ before, before <+: cs ∧ p = start.advanceOver before

instance (p : Position) (cs : List Char) : Decidable (p.IsIn cs) :=
  decidable_of_iff (∃ before ∈ cs.inits, p = Position.start.advanceOver before)
    (exists_congr fun _ => and_congr_left fun _ => List.mem_inits _ _)

/-- Texts of one length without a line break end at the same place. -/
lemma Position.advanceOver_congr (p : Position) {cs ds : List Char} (hcs : '\n' ∉ cs) (hds : '\n' ∉ ds)
    (hlength : cs.length = ds.length) : p.advanceOver cs = p.advanceOver ds := by
  induction cs generalizing p ds with
  | nil => rw [List.eq_nil_of_length_eq_zero hlength.symm]
  | cons c cs ih =>
    cases ds with
    | nil => cases hlength
    | cons d ds =>
      obtain ⟨hc, hcs⟩ := not_or.1 (mt List.mem_cons.2 hcs)
      obtain ⟨hd, hds⟩ := not_or.1 (mt List.mem_cons.2 hds)
      have hadvance : p.advance c = p.advance d := by simp [advance, Ne.symm hc, Ne.symm hd]
      rw [advanceOver_cons, advanceOver_cons, hadvance]
      exact ih _ hcs hds (Nat.succ.inj hlength)

/-- On one line, a count that is not longer than the rest of the line comes to a place of the text. -/
lemma Position.isIn_of_length_le {front behind cs : List Char} (hcs : '\n' ∉ cs)
    (hlength : cs.length ≤ (behind.takeWhile (· ≠ '\n')).length) :
    ((start.advanceOver front).advanceOver cs).IsIn (front ++ behind) := by
  have hfirst : behind.take cs.length <+: behind.takeWhile (· ≠ '\n') :=
    List.prefix_of_prefix_length_le (List.take_prefix _ _) (List.takeWhile_prefix _)
      ((List.length_take_le _ _).trans hlength)
  refine ⟨front ++ behind.take cs.length, (List.prefix_append_right_inj front).2 (List.take_prefix _ _), ?_⟩
  rw [advanceOver_append]
  refine advanceOver_congr _ hcs (fun hmem => ?_) ?_
  · simpa using List.mem_takeWhile_imp (hfirst.subset hmem)
  · rw [List.length_take, Nat.min_eq_left (hlength.trans (List.takeWhile_prefix _).length_le)]

namespace Lexer

/-- The tokens of the source from some place on. -/
def StandsIn (source : List Char) (ts : List PlacedToken) : Prop :=
  ∃ front behind, front ++ behind = source ∧ ts = place (Position.start.advanceOver front) (lexemes behind)

/-- The tokens are those of the text behind `front`, and no comment stands in front of the first of them. -/
structure BeginsAt (front behind : List Char) (ts : List PlacedToken) : Prop where
  eq_place : ts = place (Position.start.advanceOver front) (lexemes behind)
  no_comment : spanComment behind = none

variable {source : List Char} {ts us rest : List PlacedToken}

/-- A text holds comments only, or the first of its tokens stands behind them. -/
lemma place_lexemes_cases (p : Position) (cs : List Char) :
    place p (lexemes cs) = [⟨.eof, p.advanceOver cs⟩] ∨
    ∃ gap c rest, cs = gap ++ c :: rest ∧ spanComments cs = (gap, c :: rest) ∧
      place p (lexemes cs) = ⟨(readToken c rest).token, p.advanceOver gap⟩ ::
        place (p.advanceOver (gap ++ (readToken c rest).slice)) (lexemes (readToken c rest).rest) := by
  have happ := spanComments_append cs
  generalize hspan : spanComments cs = q at happ
  obtain ⟨gap, _ | ⟨c, rest⟩⟩ := q
  · obtain rfl : gap = cs := by simpa using happ
    left
    rw [lexemes_of_spanComments_nil hspan]
    rfl
  · refine .inr ⟨gap, c, rest, happ.symm, rfl, ?_⟩
    rw [lexemes_of_spanComments_cons hspan, Position.advanceOver_append]
    rfl

/-- The first tokens are read from a part of the text, and the others stand behind it. -/
lemma exists_reads {p : Position} {cs : List Char} (h : us ++ ts = place p (lexemes cs)) (hts : ts ≠ []) :
    ∃ written behind, written ++ behind = cs ∧ Reads behind written (us.map PlacedToken.token) ∧
      ts = place (p.advanceOver written) (lexemes behind) := by
  induction us generalizing p cs with
  | nil => exact ⟨[], cs, rfl, .nil, h⟩
  | cons u us ih =>
    obtain heq | ⟨gap, c, rest, rfl, hspan, heq⟩ := place_lexemes_cases p cs
    · rw [heq] at h
      exact absurd (List.append_eq_nil_iff.1 (List.cons.inj h).2).2 hts
    · rw [heq, List.cons_append] at h
      obtain ⟨rfl, hrest⟩ := List.cons.inj h
      obtain ⟨written, behind, happ, hreads, hplace⟩ := ih hrest
      have hread : readToken c rest =
          ⟨(readToken c rest).token, (readToken c rest).slice, written ++ behind⟩ := by rw [happ]
      have hcs := readToken_append c rest
      refine ⟨gap ++ ((readToken c rest).slice ++ written), behind, ?_, .cons hspan hread hreads, ?_⟩
      · rw [List.append_assoc, List.append_assoc, happ, hcs]
      · simp [hplace]

/-! ## Tokens that stand in the source -/

/-- The first token stands behind a part of the source. -/
lemma StandsIn.exists_beginsAt (h : StandsIn source ts) (ending : Position) :
    ∃ front behind, front ++ behind = source ∧ BeginsAt front behind ts ∧
      Parser.location ending ts = Position.start.advanceOver front := by
  obtain ⟨front, behind, rfl, rfl⟩ := h
  obtain heq | ⟨gap, c, rest, rfl, hspan, heq⟩ :=
    place_lexemes_cases (Position.start.advanceOver front) behind
  · refine ⟨front ++ behind, [], by simp, ⟨?_, rfl⟩, ?_⟩
    · rw [heq, lexemes_of_spanComments_nil (spanComments_of_none rfl)]
      simp [place]
    · rw [heq, Position.advanceOver_append]
      rfl
  · have hnone := spanComment_spanComments (gap ++ c :: rest)
    rw [hspan] at hnone
    refine ⟨front ++ gap, c :: rest, by simp, ⟨?_, hnone⟩, ?_⟩
    · rw [heq, lexemes_of_spanComments_cons (spanComments_of_none hnone)]
      simp [place]
    · rw [heq, Parser.location, Position.advanceOver_append]

/-- A stream stands at a place of the source. -/
lemma StandsIn.location_isIn (h : StandsIn source ts) (ending : Position) :
    (Parser.location ending ts).IsIn source := by
  obtain ⟨front, behind, rfl, -, heq⟩ := h.exists_beginsAt ending
  exact ⟨front, List.prefix_append front behind, heq⟩

/-- The end of the input is always ahead. -/
lemma StandsIn.eof_mem (h : StandsIn source ts) : ∃ t ∈ ts, t.token = .eof := by
  obtain ⟨front, behind, -, rfl⟩ := h
  have hmem := eof_mem_tokensOf behind
  rw [tokensOf, ← map_token_place (Position.start.advanceOver front)] at hmem
  exact List.mem_map.1 hmem

/-- What is left behind tokens that are taken stands in the source, too. -/
lemma StandsIn.taken (h : StandsIn source ts) (htaken : Parser.Taken ts us rest) : StandsIn source rest := by
  obtain ⟨rfl, hne⟩ := htaken
  have hrest : rest ≠ [] := by
    rintro rfl
    obtain ⟨t, ht, heof⟩ := h.eof_mem
    rw [List.append_nil] at ht
    exact hne t ht heof
  obtain ⟨front, behind, rfl, hplace⟩ := h
  obtain ⟨written, behind, rfl, -, rfl⟩ := exists_reads hplace hrest
  exact ⟨front ++ written, behind, by rw [List.append_assoc], by rw [Position.advanceOver_append]⟩

/-- A stream still stands in the source when its first token is taken. -/
lemma StandsIn.tail {t : PlacedToken} (h : StandsIn source (t :: ts)) (hne : t.token ≠ .eof) : StandsIn source ts :=
  h.taken (Parser.Taken.single hne)

/-- A stream still stands in the source behind white space. -/
lemma StandsIn.dropSpace (h : StandsIn source ts) : StandsIn source (ts.dropWhile (·.token == .whitespace)) :=
  h.taken (Parser.taken_dropSpace ts)

/-- A stream still stands in the source behind a prelude. -/
lemma StandsIn.behindPrelude (h : StandsIn source ts) (depth : Nat) :
    StandsIn source (Prelude.spanPrelude depth ts).2 := by
  obtain ⟨us, htaken, -⟩ := Parser.taken_spanPrelude depth ts
  exact h.taken htaken

/-- A missing colon is reported at a place of the source. -/
lemma StandsIn.isIn_of_name {start : Position} {e : ParseError} (h : StandsIn source ts)
    (hstart : start.IsIn source) (hname : Parser.readPropertyName start ts = .error e) :
    e.position.IsIn source := by
  obtain heq | ⟨us, t, rest, rfl, hne, heq⟩ := Parser.readPropertyName_error hname
  · rwa [heq]
  · rw [heq]
    exact (h.taken ⟨rfl, hne⟩).location_isIn .start

end Lexer

namespace Parser

open Lexer Prelude Text

/-! ## Where selectors begin -/

/-- The place that is asked for when the stream has ended. -/
def endingOf (source : String) : Position :=
  ((Lexer.tokenize source).getLast?.map PlacedToken.position).getD .start

/-- The reader comes to this state, with this stream before it, on its way through the source. -/
inductive Reaches (source : String) : State → List PlacedToken → Prop where
  | start : Reaches source .initial (Lexer.tokenize source)
  | step {st st' ts rest} : Reaches source st ts → Goes (endingOf source) (st, ts) (st', rest) →
    Reaches source st' rest

/-- The reader comes to the stream and takes the tokens at its beginning for a selector: for that of a rule, or for
the targets of a directive. -/
inductive BeginsSelector (source : String) : List PlacedToken → List Token → Prop where
  | rule {st ts} : Reaches source st ts → st.inKeyframes = false → ts.head?.any (isPlain ·.token) →
    startsBlock 0 ts → BeginsSelector source ts (spanPrelude 0 ts).1
  | targets {st name position ts} : Reaches source st (⟨.atKeyword name, position⟩ :: ts) →
    sameLetters name "extend" → BeginsSelector source (ts.dropWhile (·.token == .whitespace))
      (stripFlag "optional" (spanPrelude 0 (ts.dropWhile (·.token == .whitespace))).1).1

variable {source : String} {st st' : State} {ts rest : List PlacedToken} {taken : List Token}

/-- The reader never leaves the source. -/
lemma Reaches.standsIn (h : Reaches source st ts) : StandsIn source.toList ts := by
  induction h with
  | start => exact ⟨[], source.toList, rfl, rfl⟩
  | step _ hgoes ih =>
    obtain ⟨us, htaken, -⟩ := takes_of_step hgoes
    exact ih.taken htaken

/-- A selector begins in the source. -/
lemma BeginsSelector.standsIn (h : BeginsSelector source ts taken) : StandsIn source.toList ts := by
  cases h with
  | rule hreaches => exact hreaches.standsIn
  | targets hreaches => exact (hreaches.standsIn.tail (by simp)).dropSpace

/-- The tokens of a selector are the first ones of the stream, and others are left. -/
lemma BeginsSelector.exists_append (h : BeginsSelector source ts taken) :
    ∃ us rest, us ++ rest = ts ∧ us.map PlacedToken.token = taken ∧ rest ≠ [] := by
  have hfirst : taken <+: (spanPrelude 0 ts).1 := by
    cases h with
    | rule => exact List.prefix_refl _
    | targets => exact stripFlag_isPrefix _ _
  have hrest : (spanPrelude 0 ts).2 ≠ [] := by
    intro hnil
    obtain ⟨t, ht, -⟩ := (h.standsIn.behindPrelude 0).eof_mem
    rw [hnil] at ht
    exact List.not_mem_nil ht
  obtain ⟨us, happ, hmap, -⟩ := spanPrelude_append 0 ts
  obtain ⟨more, hmore⟩ := hfirst
  rw [← hmap] at hmore
  obtain ⟨us₁, us₂, rfl, hus₁, -⟩ := List.map_eq_append_iff.1 hmore.symm
  exact ⟨us₁, us₂ ++ (spanPrelude 0 ts).2, by rw [← List.append_assoc, happ], hus₁,
    List.append_ne_nil_of_right_ne_nil _ hrest⟩

/-! ## Errors of a step -/

/-- The text is that of a selector, which begins at the place. -/
def IsTold (source text : String) (p : Position) : Prop :=
  ∃ ts taken, BeginsSelector source ts taken ∧ text = serialize taken ∧ p = location (endingOf source) ts

/-- An error at a place of the source, or in a selector and counted over its text from where it begins. -/
def ErrorFits (source : String) (e : ParseError) : Prop :=
  e.position.IsIn source.toList ∨ ∃ text fault p rest, e = .invalidSelector text fault
    (p.advanceOver (text.toList.take (text.toList.length - rest.length))) ∧
      Grammar.readSelectors text.toList = .error ⟨fault, rest⟩ ∧ IsTold source text p

/-- The selectors of the open blocks begin where their blocks do. -/
def State.IsTold (source : String) (st : State) : Prop :=
  ∀ f ∈ st.frames, ∀ text, f.header = .rule text → Parser.IsTold source text f.position

/-- A step fails with a fitting error, or leaves a state whose selectors begin in the source. -/
def Fits (source : String) : Except ParseError Step → Prop
  | .error e => ErrorFits source e
  | .ok (.done ..) => True
  | .ok (.next st _) => st.IsTold source

/-- A selector that is refused is refused with a fitting error. -/
lemma errorFits_of_parse {text : String} {p : Position} {e : ParseError}
    (h : SelectorList.parse text p = .error e) (htold : IsTold source text p) : ErrorFits source e := by
  unfold SelectorList.parse at h
  dsimp only at h
  split at h
  · cases h
  · next fault rest hread =>
    cases h
    exact .inr ⟨text, fault, p, rest, rfl, hread, htold⟩

/-- At the beginning no block is open whose selector would have to be told. -/
lemma isTold_initial : State.initial.IsTold source :=
  List.forall_mem_nil _

section Step

variable (hst : st.IsTold source) (hts : StandsIn source.toList ts)
include hst hts

/-- The header of a block has to be told when the block opens. -/
lemma fits_openBlock {header : Header} {p : Position}
    (hheader : ∀ text, header = .rule text → IsTold source text p) :
    Fits source (openBlock (endingOf source) st header p ts) := by
  have hlocation := hts.location_isIn (endingOf source)
  unfold openBlock
  split
  · exact .inl hlocation
  · exact List.forall_mem_cons.2 ⟨hheader, hst⟩
  · exact .inl hlocation

omit hst in
/-- At the end of the input an error is placed in the source. -/
lemma fits_finish : Fits source (finish (endingOf source) st ts) := by
  unfold finish
  split
  · trivial
  · exact .inl (hts.location_isIn (endingOf source))

omit hts in
/-- A block that closes is refused only for its selector. -/
lemma fits_closeBlock {p : Position} (hp : p.IsIn source.toList) : Fits source (closeBlock st p ts) := by
  unfold closeBlock
  split
  · exact .inl hp
  · next frame frames heq =>
    rw [State.IsTold, heq] at hst
    obtain ⟨hframe, hframes⟩ := List.forall_mem_cons.1 hst
    cases hclose : frame.header.close frame.position st.statements with
    | error e =>
      obtain ⟨text, hheader, hparse⟩ := Header.exists_of_close_error hclose
      exact errorFits_of_parse hparse (hframe text hheader)
    | ok s => exact hframes

end Step

section Reached

variable (hst : st.IsTold source)
include hst

/-- The targets of a directive begin behind its keyword. -/
lemma fits_readAtRule (hreaches : Reaches source st ts) : Fits source (readAtRule (endingOf source) st ts) := by
  have hts := hreaches.standsIn
  unfold readAtRule
  split
  · next name p ts =>
    have hspace := (hts.tail (by simp)).dropSpace
    have hrest := hspace.behindPrelude 0
    dsimp only
    split
    · next hextend =>
      unfold readExtend
      dsimp only
      split
      · exact .inl (hrest.location_isIn (endingOf source))
      · cases hparse : SelectorList.parse
            (serialize (stripFlag "optional" (spanPrelude 0 (ts.dropWhile (·.token == .whitespace))).1).1)
            (location (endingOf source) (ts.dropWhile (·.token == .whitespace))) with
        | error e => exact errorFits_of_parse hparse ⟨_, _, .targets hreaches hextend, rfl, rfl⟩
        | ok targets => exact hst
    · split
      · exact hst
      · split <;> exact fits_openBlock hst hrest (by simp)
  · exact .inl (hts.location_isIn (endingOf source))

/-- The selector of a rule begins where the rule does. -/
lemma fits_readQualifiedRule (hreaches : Reaches source st ts) (hplain : ts.head?.any (isPlain ·.token))
    (hstarts : startsBlock 0 ts) : Fits source (readQualifiedRule (endingOf source) st ts) := by
  refine fits_openBlock hst (hreaches.standsIn.behindPrelude 0) fun text htext => ?_
  split at htext
  · cases htext
  · next hkeyframes =>
    cases htext
    exact ⟨ts, _, .rule hreaches (Bool.eq_false_iff.2 hkeyframes) hplain hstarts, rfl, rfl⟩

/-- A declaration fails at a place of the source. -/
lemma fits_readDeclaration (hts : StandsIn source.toList ts) :
    Fits source (readDeclaration (endingOf source) st ts) := by
  have hlocation := hts.location_isIn (endingOf source)
  rw [readDeclaration]
  cases hname : readPropertyName (location (endingOf source) ts) ts with
  | error e => exact .inl (hts.isIn_of_name hlocation hname)
  | ok q =>
    simp only [bind, Except.bind]
    cases (serialize q.1).isEmpty with
    | true => exact .inl hlocation
    | false => exact hst

/-- A step on the way through the source fails with a fitting error, or leaves selectors that begin in the source. -/
lemma fits_step (hreaches : Reaches source st ts) : Fits source (step (endingOf source) st ts) := by
  have hts := hreaches.standsIn
  cases ts with
  | nil => exact fits_finish hts
  | cons t ts =>
    obtain ⟨token, place⟩ := t
    by_cases hplain : isPlain token
    · rw [step_of_isPlain hplain]
      split
      · next hstarts => exact fits_readQualifiedRule hst hreaches (by simpa using hplain) hstarts
      · exact fits_readDeclaration hst hts
    · cases token with
      | whitespace => exact hst
      | semicolon => exact hst
      | eof => exact fits_finish hts
      | rightBrace => exact fits_closeBlock hst (hts.location_isIn (endingOf source))
      | atKeyword name => exact fits_readAtRule hst hreaches
      | _ => exact absurd rfl hplain

/-- A run on the way through the source reports a fitting error. -/
lemma errorFits_of_run {e : ParseError} (hreaches : Reaches source st ts)
    (h : run (endingOf source) st ts = .error e) : ErrorFits source e := by
  fun_induction run (endingOf source) st ts with
  | case1 st ts e' hstep =>
    cases h
    have hfits : Fits source (step (endingOf source) st ts) := fits_step hst hreaches
    rwa [hstep] at hfits
  | case2 => cases h
  | case3 st ts st' rest hstep _ ih =>
    have hfits : Fits source (step (endingOf source) st ts) := fits_step hst hreaches
    rw [hstep] at hfits
    exact ih hfits (hreaches.step hstep) h

end Reached

end Parser

/-- A fault in a selector whose first token stands behind `front`, counted over the text of the selector: in front of
the fault this text is longer than the rest of the line, or has a line break itself. -/
def IsMiscounted (source text : String) (fault : SelectorFault) (p : Position) : Prop :=
  ∃ ts taken front behind rest, Parser.BeginsSelector source ts taken ∧ text = Prelude.serialize taken ∧
    front ++ behind = source.toList ∧ Lexer.BeginsAt front behind ts ∧
    Grammar.readSelectors text.toList = .error ⟨fault, rest⟩ ∧
    let consumed := text.toList.take (text.toList.length - rest.length)
    p = (Position.start.advanceOver front).advanceOver consumed ∧
      ('\n' ∈ consumed ∨ (behind.takeWhile (· ≠ '\n')).length < consumed.length)

/-- A line break in the text of tokens is one in the tokens. -/
lemma newline_mem_serialize {ts : List Token} (h : '\n' ∈ (Prelude.serialize ts).toList) :
    '\n' ∈ (Token.concatText ts).toList := by
  obtain ⟨before, behind, heq, -, -⟩ := Text.exists_trim_append (Token.concatText ts).toList
  rw [Prelude.serialize, Text.trimmed, String.toList_ofList] at h
  rw [← heq]
  simp [h]

/-- A selector whose fault is counted like this is written over several lines, or its text is longer than what was
written. -/
theorem IsMiscounted.exists_written {source text : String} {fault : SelectorFault} {p : Position}
    (h : IsMiscounted source text fault p) : ∃ taken front written behind,
      text = Prelude.serialize taken ∧ front ++ (written ++ behind) = source.toList ∧
        Lexer.Reads behind written taken ∧ ('\n' ∈ written ∨ written.length < text.toList.length) := by
  obtain ⟨ts, taken, front, behind, rest, hbegins, rfl, hsource, ⟨hplace, -⟩, -, -, hlong⟩ := h
  obtain ⟨us, rest', happ, rfl, hrest⟩ := hbegins.exists_append
  rw [← happ] at hplace
  obtain ⟨written, behind, rfl, hreads, -⟩ := Lexer.exists_reads hplace hrest
  refine ⟨_, front, written, behind, rfl, hsource, hreads, ?_⟩
  obtain hline | hlength := hlong
  · exact .inl (hreads.newline_mem (newline_mem_serialize (List.mem_of_mem_take hline)))
  · by_cases hline : '\n' ∈ written
    · exact .inl hline
    · -- without a line break, what was written is a part of the line
      have hall : ∀ c ∈ written, decide (c ≠ '\n') = true := by
        intro c hc
        simpa using ne_of_mem_of_not_mem hc hline
      rw [List.takeWhile_append_of_pos hall, List.length_append] at hlength
      have htake := List.length_take_le' ((Prelude.serialize (us.map PlacedToken.token)).toList.length - rest.length)
        (Prelude.serialize (us.map PlacedToken.token)).toList
      exact .inr (by omega)

/-- An error is reported at a place of the source, unless it is in a selector and counted over a text that is longer
than the rest of the line that the selector begins on, or has a line break itself. -/
theorem Stylesheet.isIn_or_isMiscounted_of_parse {source : String} {e : ParseError}
    (h : Stylesheet.parse source = .error e) : e.position.IsIn source.toList ∨
      ∃ text fault p, e = .invalidSelector text fault p ∧ IsMiscounted source text fault p := by
  have hfits : Parser.ErrorFits source e := by
    unfold Stylesheet.parse Stylesheet.ofTokens at h
    simp only [bind, Except.bind] at h
    split at h
    · next e' hrun =>
      cases h
      exact Parser.errorFits_of_run Parser.isTold_initial .start hrun
    · cases h
  obtain hin | ⟨text, fault, p, rest, rfl, hread, ts, taken, hbegins, htext, rfl⟩ := hfits
  · exact .inl hin
  obtain ⟨front, behind, hsource, hfirst, hlocation⟩ := hbegins.standsIn.exists_beginsAt (Parser.endingOf source)
  rw [hlocation]
  generalize hconsumed : text.toList.take (text.toList.length - rest.length) = consumed
  by_cases hlong : '\n' ∈ consumed ∨ (behind.takeWhile (· ≠ '\n')).length < consumed.length
  · exact .inr ⟨text, fault, _, rfl, ts, taken, front, behind, rest, hbegins, htext, hsource, hfirst, hread,
      by rw [hconsumed], by rwa [hconsumed]⟩
  · left
    obtain ⟨hline, hlength⟩ := not_or.1 hlong
    rw [← hsource]
    exact Position.isIn_of_length_le hline (Nat.le_of_not_lt hlength)

/-- On one line the fault is found where it is. Behind a line break it is reported past the end of the first line. -/
theorem Stylesheet.isIn_or_isMiscounted_of_parse_line :
    (∃ e, Stylesheet.parse "a $ \x7b\x7d" = .error e ∧ e.position = ⟨1, 3⟩ ∧
      e.position.IsIn "a $ \x7b\x7d".toList) ∧
    ∃ e, Stylesheet.parse "a\n$ \x7b\x7d" = .error e ∧ e.position = ⟨1, 3⟩ ∧
      ∃ text fault p, e = .invalidSelector text fault p ∧ IsMiscounted "a\n$ \x7b\x7d" text fault p := by
  refine ⟨exists_error_of_test (by decide +kernel), ?_⟩
  obtain ⟨e, he, hposition, hnot⟩ : ∃ e, Stylesheet.parse "a\n$ \x7b\x7d" = .error e ∧ e.position = ⟨1, 3⟩ ∧
      ¬e.position.IsIn "a\n$ \x7b\x7d".toList :=
    exists_error_of_test (by decide +kernel)
  exact ⟨e, he, hposition, (Stylesheet.isIn_or_isMiscounted_of_parse he).resolve_left hnot⟩

/-- A fault on the second line of a selector is reported behind the end of the first one. -/
theorem Stylesheet.exists_position_not_isIn : ∃ e, Stylesheet.parse "a\n$ \x7b\x7d" = .error e ∧
    e.position = ⟨1, 3⟩ ∧ ¬e.position.IsIn "a\n$ \x7b\x7d".toList :=
  exists_error_of_test (by decide +kernel)

end ScssExtend
