import ScssExtend.Proofs.Stylesheet.Progress

/-!
# Looking ahead for a block

Whether a block follows is told by looking ahead over the stream, and where it begins by taking its prelude off the
stream. Both count brackets in the same way, stray ones included, so they agree at every depth
(`Prelude.startsBlock_eq_atBrace`). `EntersBlock` lists where the reader goes on to open a block; there the next token
is always a `{` (`EntersBlock.exists_brace`), so the errors about a missing one do not occur
(`Stylesheet.lookahead_agrees`).
-/

namespace ScssExtend

/-- True of the errors that tell that no block or no at-rule begins where one was expected. -/
def ParseError.isMissingOpening : ParseError → Bool
  | .unexpectedToken (.insteadOfBlock _) _ | .unexpectedToken .insteadOfAtKeyword _
  | .unexpectedEnd .openingBrace _ => true
  | _ => false

/-- A block follows just when a `{` is in front of what is left behind the prelude. -/
lemma Prelude.startsBlock_eq_atBrace (depth : Nat) (ts : List PlacedToken) :
    startsBlock depth ts = Parser.atBrace (spanPrelude depth ts).2 := by
  induction ts generalizing depth with
  | nil => rfl
  | cons t ts ih =>
    rw [startsBlock, spanPrelude]
    by_cases hopen : t.token = .leftBrace ∧ depth = 0
    · simp [hopen, isStop, Parser.atBrace]
    · rw [if_neg hopen]
      split
      · next hstop =>
        -- a stop that is not a `{` outside of brackets is no `{` at all
        have hne : t.token ≠ .leftBrace := by
          intro hbrace
          have hdepth : depth = 0 := by simpa [isStop, hbrace] using hstop
          exact hopen ⟨hbrace, hdepth⟩
        simp [Parser.atBrace, hne]
      · exact ih _

namespace Parser

open Grammar Prelude Text

/-- In this state the reader goes on to open a block with the given header and place, behind the prelude of an
at-rule or of a style rule or keyframe step. The tokens from where the `{` is expected come last. -/
inductive EntersBlock (st : State) : List PlacedToken → Header → Position → List PlacedToken → Prop where
  | atRule {name place ts taken behind} : sameLetters name "extend" = false →
    spanPrelude 0 (ts.dropWhile (·.token == .whitespace)) = (taken, behind) → atBrace behind →
    EntersBlock st (⟨.atKeyword name, place⟩ :: ts)
      (if sameLetters name "media" then .media (serialize taken) else .atBlock name (serialize taken)) place behind
  | rule {t ts taken behind} : isPlain t.token → startsBlock 0 (t :: ts) →
    spanPrelude 0 (t :: ts) = (taken, behind) →
    EntersBlock st (t :: ts) ((if st.inKeyframes then Header.keyframe else Header.rule) (serialize taken))
      t.position behind

variable {ending position : Position} {st : State} {ts behind : List PlacedToken} {header : Header}

/-- A stream stands at a brace when that is its first token. -/
lemma atBrace_iff : atBrace ts ↔ ∃ brace rest, ts = brace :: rest ∧ brace.token = .leftBrace := by
  cases ts <;> simp [atBrace]

/-- There the step is to open the block. -/
lemma EntersBlock.step_eq (h : EntersBlock st ts header position behind) :
    step ending st ts = openBlock ending st header position behind := by
  cases h with
  | @atRule name place ts taken _ hname hspan hbrace =>
    rw [step]
    simp only [readAtRule, hname, hspan, hbrace]
    cases sameLetters name "media" <;> rfl
  | rule hplain hstarts hspan =>
    rw [step_of_isPlain hplain, if_pos hstarts, readQualifiedRule, hspan]
    rfl

/-- What comes next there is a `{`. -/
lemma EntersBlock.exists_brace (h : EntersBlock st ts header position behind) :
    ∃ brace rest, behind = brace :: rest ∧ brace.token = .leftBrace := by
  cases h with
  | atRule _ _ hbrace => exact atBrace_iff.1 hbrace
  | rule _ hstarts hspan =>
    rw [startsBlock_eq_atBrace, hspan] at hstarts
    exact atBrace_iff.1 hstarts

/-- From there the reader goes past the brace into the block. -/
lemma EntersBlock.goes (h : EntersBlock st ts header position behind) (ending : Position) : ∃ brace rest,
    behind = brace :: rest ∧ brace.token = .leftBrace ∧
      Goes ending (st, ts) (st.enter header position, rest) := by
  obtain ⟨⟨token, place⟩, rest, rfl, rfl⟩ := h.exists_brace
  exact ⟨_, rest, rfl, rfl, h.step_eq⟩

/-! ## The other steps -/

/-- The outcome of a step by which no block is opened, and none was missing. -/
def OpensNothing (st : State) : Except ParseError Step → Prop
  | .error e => e.isMissingOpening = false
  | .ok (.done ..) => True
  | .ok (.next st' _) => st'.frames.length ≤ st.frames.length

/-- A refused selector is not a missing brace. -/
lemma isMissingOpening_of_parse {text : String} {e : ParseError}
    (h : SelectorList.parse text position = .error e) : e.isMissingOpening = false := by
  unfold SelectorList.parse at h
  dsimp only at h
  split at h <;> cases h
  rfl

/-- A block that cannot be closed is not a missing brace. -/
lemma isMissingOpening_of_close {body : List Statement} {e : ParseError}
    (h : header.close position body = .error e) : e.isMissingOpening = false := by
  obtain ⟨text, -, hparse⟩ := Header.exists_of_close_error h
  exact isMissingOpening_of_parse hparse

/-- A name without its colon is not a missing brace. -/
lemma isMissingOpening_of_readPropertyName {start : Position} {e : ParseError}
    (h : readPropertyName start ts = .error e) : e.isMissingOpening = false := by
  fun_induction readPropertyName start ts with
  | case1 => cases h; rfl
  | case2 => cases h
  | case3 => cases h; rfl
  | case4 => cases h; rfl
  | case5 => cases h; rfl
  | case6 place ts token _ _ _ _ ih =>
    obtain hrest | ⟨read, -, h⟩ := bind_eq_error.1 h
    · exact ih hrest
    · cases h

/-- The end of the input opens nothing. -/
lemma opensNothing_finish : OpensNothing st (finish ending st ts) := by
  unfold finish
  split
  · trivial
  · rfl

/-- A closing brace opens nothing. -/
lemma opensNothing_closeBlock : OpensNothing st (closeBlock st position ts) := by
  unfold closeBlock
  split
  · rfl
  · next frame frames hframes =>
    cases hclose : frame.header.close frame.position st.statements with
    | error e => exact isMissingOpening_of_close hclose
    | ok s =>
      change frames.length ≤ st.frames.length
      rw [hframes]
      exact Nat.le_succ _

/-- A directive opens nothing. -/
lemma opensNothing_readExtend : OpensNothing st (readExtend ending st position ts) := by
  unfold readExtend
  dsimp only
  split
  · rfl
  · cases hparse : SelectorList.parse
        (serialize (stripFlag "optional" (spanPrelude 0 ts).1).1) (location ending ts) with
    | error e => exact isMissingOpening_of_parse hparse
    | ok targets => exact Nat.le_refl _

/-- A declaration opens nothing. -/
lemma opensNothing_readDeclaration : OpensNothing st (readDeclaration ending st ts) := by
  rw [readDeclaration]
  cases hname : readPropertyName (location ending ts) ts with
  | error e => exact isMissingOpening_of_readPropertyName hname
  | ok read =>
    simp only [bind, Except.bind]
    cases (serialize read.1).isEmpty with
    | true => rfl
    | false => exact Nat.le_refl _

/-- A step that opens a block, or misses one, does so where `EntersBlock` tells. -/
lemma entersBlock_or_opensNothing (ending : Position) (st : State) (ts : List PlacedToken) :
    (∃ header position behind, EntersBlock st ts header position behind) ∨
      OpensNothing st (step ending st ts) := by
  cases ts with
  | nil => exact .inr opensNothing_finish
  | cons t ts =>
    by_cases hplain : isPlain t.token
    · rw [step_of_isPlain hplain]
      by_cases hstarts : startsBlock 0 (t :: ts)
      · exact .inl ⟨_, _, _, .rule hplain hstarts rfl⟩
      · rw [if_neg hstarts]
        exact .inr opensNothing_readDeclaration
    · obtain ⟨token, place⟩ := t
      cases token with
      | atKeyword name =>
        by_cases hname : sameLetters name "extend"
        · right
          simp only [step, readAtRule, hname, if_true]
          exact opensNothing_readExtend
        · by_cases hbrace : atBrace (spanPrelude 0 (ts.dropWhile (·.token == .whitespace))).2
          · exact .inl ⟨_, _, _, .atRule (Bool.eq_false_iff.2 hname) rfl hbrace⟩
          · right
            simp only [step, readAtRule, hname, hbrace]
            exact Nat.le_refl _
      | whitespace => exact .inr (Nat.le_refl _)
      | semicolon => exact .inr (Nat.le_refl _)
      | eof => exact .inr opensNothing_finish
      | rightBrace => exact .inr opensNothing_closeBlock
      | _ => exact absurd rfl hplain

/-- Every block that is opened is entered so. -/
lemma exists_entersBlock (h : Goes ending (st, ts) (st.enter header position, behind)) :
    ∃ mid, EntersBlock st ts header position mid := by
  obtain ⟨header', position', mid, henters⟩ | hnothing := entersBlock_or_opensNothing ending st ts
  · obtain ⟨_, _, -, -, hgoes⟩ := henters.goes ending
    rw [Goes] at h hgoes
    rw [h] at hgoes
    cases hgoes
    exact ⟨mid, henters⟩
  · rw [Goes] at h
    rw [h] at hnothing
    exact absurd hnothing (Nat.not_succ_le_self _)

/-- No step misses a brace. -/
lemma isMissingOpening_of_step {e : ParseError} (h : step ending st ts = .error e) :
    e.isMissingOpening = false := by
  obtain ⟨_, _, _, henters⟩ | hnothing := entersBlock_or_opensNothing ending st ts
  · obtain ⟨_, _, -, -, hgoes⟩ := henters.goes ending
    rw [Goes, h] at hgoes
    cases hgoes
  · rwa [h] at hnothing

/-- No run misses a brace. -/
lemma isMissingOpening_of_run {e : ParseError} (h : run ending st ts = .error e) :
    e.isMissingOpening = false := by
  fun_induction run ending st ts with
  | case1 st ts e' hstep =>
    cases h
    exact isMissingOpening_of_step hstep
  | case2 => cases h
  | case3 st ts st' rest hstep _ ih => exact ih h

end Parser

/-- Looking ahead and taking the prelude agree at every depth of brackets. Wherever the reader goes on to open a
block, whatever its state and the tokens, what is left begins with a `{`, and every block that it opens is opened in
this way. So no token stream is refused for a block that does not begin, or for an at-rule without an at-keyword. -/
theorem Stylesheet.lookahead_agrees :
    (∀ depth ts, Prelude.startsBlock depth ts = Parser.atBrace (Prelude.spanPrelude depth ts).2) ∧
    (∀ ending st ts header position behind, Parser.EntersBlock st ts header position behind →
      Parser.step ending st ts = Parser.openBlock ending st header position behind ∧
      ∃ brace rest, behind = brace :: rest ∧ brace.token = .leftBrace ∧
        Parser.Goes ending (st, ts) (st.enter header position, rest)) ∧
    (∀ ending st ts header position rest, Parser.Goes ending (st, ts) (st.enter header position, rest) →
      ∃ behind, Parser.EntersBlock st ts header position behind) ∧
    ∀ tokens e, ofTokens tokens = .error e → e.isMissingOpening = false := by
  refine ⟨Prelude.startsBlock_eq_atBrace, fun ending st ts header position behind henters => ?_, ?_, ?_⟩
  · exact ⟨henters.step_eq, henters.goes ending⟩
  · intro ending st ts header position rest hgoes
    exact Parser.exists_entersBlock hgoes
  · intro tokens e he
    rw [ofTokens_eq] at he
    cases hrun : Parser.run (Parser.endOf tokens) .initial tokens with
    | error e' =>
      rw [hrun] at he
      cases he
      exact Parser.isMissingOpening_of_run hrun
    | ok read =>
      rw [hrun] at he
      cases he

/-- A stray parenthesis, a brace in parentheses, and a block that is open when the tokens end. -/
def Stylesheet.unbalanced : List PlacedToken :=
  [.rightParen, .function "f", .leftBrace, .rightParen, .leftBrace].map (PlacedToken.mk · .start)

/-- The second brace opens the block, and what is missing is the one that closes it. -/
theorem Stylesheet.lookahead_agrees_unbalanced : ∃ header behind rest e,
    Parser.EntersBlock .initial unbalanced header .start behind ∧ behind = ⟨.leftBrace, .start⟩ :: rest ∧
    Parser.Goes .start (.initial, unbalanced) (Parser.State.initial.enter header .start, rest) ∧
    ofTokens unbalanced = .error e ∧ e = .unexpectedEnd .closingBrace .start ∧ e.isMissingOpening = false := by
  obtain ⟨header, henters⟩ : ∃ header,
      Parser.EntersBlock .initial unbalanced header .start [⟨.leftBrace, .start⟩] :=
    ⟨_, .rule rfl (by decide) rfl⟩
  have herror : ofTokens unbalanced = .error (.unexpectedEnd .closingBrace .start) := by
    obtain ⟨e, he, rfl⟩ : ∃ e, ofTokens unbalanced = .error e ∧ e = .unexpectedEnd .closingBrace .start :=
      exists_error_of_test (by decide +kernel)
    exact he
  obtain ⟨-, hblocks, -, herrors⟩ := lookahead_agrees
  obtain ⟨-, brace, rest, hbehind, -, hgoes⟩ := hblocks .start _ _ _ _ _ henters
  cases hbehind
  exact ⟨_, _, _, _, henters, rfl, hgoes, herror, rfl, herrors _ _ herror⟩

end ScssExtend
