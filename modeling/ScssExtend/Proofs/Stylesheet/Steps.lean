import Mathlib.Logic.Relation
import ScssExtend.Proofs.Stylesheet.Brackets

/-!
# Steps of the reader of stylesheets

One lemma for each thing that a printed line can be: white space, the header of a block, an at-rule without one, a
declaration or the end of a block. Each says from which tokens to which state the step goes (`Goes`). Steps one
behind the other are a part of a run (`run_of_goes`).
-/

namespace ScssExtend.Parser

open Prelude Text

variable {ending : Position} {st : State} {ts : List PlacedToken}

/-- A token that begins a rule, a keyframe step or a declaration. -/
def isPlain : Token → Bool
  | .whitespace | .semicolon | .eof | .rightBrace | .atKeyword _ => false
  | _ => true

/-- A run takes the step that its state takes. -/
lemma run_of_step {st' : State} {rest : List PlacedToken} (h : step ending st ts = .ok (.next st' rest)) :
    run ending st ts = run ending st' rest := by
  conv => lhs; rw [run.eq_def]
  split <;> simp_all

/-- The reader comes from one place to another in one step. -/
def Goes (ending : Position) (a b : State × List PlacedToken) : Prop :=
  step ending a.1 a.2 = .ok (.next b.1 b.2)

/-- A run may be started anywhere on its way. -/
lemma run_of_goes {a b : State × List PlacedToken} (h : Relation.ReflTransGen (Goes ending) a b) :
    run ending a.1 a.2 = run ending b.1 b.2 := by
  induction h with
  | refl => rfl
  | tail _ hgoes ih => rw [ih, run_of_step hgoes]

/-- White space is skipped. -/
lemma goes_space {t : PlacedToken} (ht : t.token = .whitespace) : Goes ending (st, t :: ts) (st, ts) := by
  unfold Goes step
  simp only [ht]

/-- Leading white space is skipped token by token. -/
lemma goes_dropWhile (ending : Position) (st : State) (ts : List PlacedToken) :
    Relation.ReflTransGen (Goes ending) (st, ts) (st, ts.dropWhile (·.token == .whitespace)) := by
  induction ts with
  | nil => exact .refl
  | cons t ts ih =>
    by_cases ht : t.token = .whitespace
    · rw [List.dropWhile_cons_of_pos (by simp [ht])]
      exact .head (goes_space ht) ih
    · rw [List.dropWhile_cons_of_neg (by simp [ht])]

/-- A plain token begins a rule if a block follows its prelude, and else a declaration. -/
lemma step_of_isPlain {t : PlacedToken} (h : isPlain t.token) : step ending st (t :: ts) =
    if startsBlock 0 (t :: ts) then readQualifiedRule ending st (t :: ts)
    else readDeclaration ending st (t :: ts) := by
  unfold step
  dsimp only
  split <;> simp_all [isPlain]

/-- A prelude with a block behind it is the header of a rule or of a keyframe step. -/
lemma goes_header (ending : Position) (st : State) (ts : List PlacedToken) {us : List PlacedToken}
    {brace : PlacedToken} (hprelude : isPrelude 0 (us.map PlacedToken.token))
    (hplain : (us.map PlacedToken.token).head?.all isPlain) (hbrace : brace.token = .leftBrace) :
    ∃ position, Goes ending (st, us ++ brace :: ts)
      (st.enter ((if st.inKeyframes then Header.keyframe else Header.rule) (serialize (us.map PlacedToken.token)))
        position, ts) := by
  obtain ⟨token, place⟩ := brace
  obtain rfl : token = .leftBrace := hbrace
  refine ⟨location ending (us ++ ⟨.leftBrace, place⟩ :: ts), ?_⟩
  have hstep : step ending st (us ++ ⟨.leftBrace, place⟩ :: ts) =
      readQualifiedRule ending st (us ++ ⟨.leftBrace, place⟩ :: ts) := by
    have hstarts := startsBlock_run hprelude ⟨.leftBrace, place⟩ rfl ts
    cases us with
    | nil => rw [List.nil_append, step_of_isPlain rfl, if_pos (by simpa using hstarts)]
    | cons u us =>
      rw [List.cons_append, step_of_isPlain (by simpa using hplain), if_pos (by simpa using hstarts)]
  rw [Goes, hstep, readQualifiedRule, spanPrelude_run hprelude ⟨.leftBrace, place⟩ rfl ts]
  rfl

/-- No white space stands in front of such a token. -/
lemma lead_of_head_isPlain {us : List Token} (h : us.head?.all isPlain) : lead us = us := by
  cases us with
  | nil => rfl
  | cons u us =>
    refine List.dropWhile_cons_of_neg ?_
    rintro hu
    rw [beq_iff_eq.1 hu] at h
    cases h

/-- Leading white space of a stream is that of its tokens. -/
lemma map_token_dropWhile (us : List PlacedToken) :
    (us.dropWhile (·.token == .whitespace)).map PlacedToken.token = lead (us.map PlacedToken.token) := by
  rw [lead, List.dropWhile_map]
  rfl

/-- A prelude behind white space is taken up to what ends it. -/
lemma spanPrelude_dropWhile {us : List PlacedToken} (hprelude : isPrelude 0 (us.map PlacedToken.token))
    (mark : PlacedToken) (hmark : isStop mark.token) :
    spanPrelude 0 ((us ++ mark :: ts).dropWhile (·.token == .whitespace)) =
      (lead (us.map PlacedToken.token), mark :: ts) := by
  have hspace : mark.token ≠ .whitespace := by
    intro hspace
    rw [hspace] at hmark
    cases hmark
  have hdrop : (us ++ mark :: ts).dropWhile (·.token == .whitespace) =
      us.dropWhile (·.token == .whitespace) ++ mark :: ts := by
    rw [List.dropWhile_append]
    split
    · next hempty => simp [List.isEmpty_iff.1 hempty, hspace]
    · rfl
  rw [hdrop, spanPrelude_run (by rwa [map_token_dropWhile, isPrelude_congr (brackets_lead _)]) mark hmark,
    map_token_dropWhile]

/-- An at-rule without a block is kept with its name and its prelude. -/
lemma goes_atRule (ending : Position) (st : State) (ts : List PlacedToken) {us : List PlacedToken}
    {keyword semicolon : PlacedToken} {name : String}
    (hprelude : isPrelude 0 (us.map PlacedToken.token)) (hkeyword : keyword.token = .atKeyword name)
    (hname : sameLetters name "extend" = false) (hsemicolon : semicolon.token = .semicolon) :
    Goes ending (st, keyword :: (us ++ semicolon :: ts))
      (st.add (.atRule name (serialize (us.map PlacedToken.token)) keyword.position), ts) := by
  obtain ⟨_, position⟩ := keyword
  obtain ⟨_, place⟩ := semicolon
  subst hkeyword hsemicolon
  rw [Goes, step]
  simp only [readAtRule, hname, spanPrelude_dropWhile hprelude ⟨.semicolon, place⟩ rfl, serialize_lead]
  rfl

/-- An at-rule with a block behind it is the header of that block. -/
lemma goes_atBlock (ending : Position) (st : State) (ts : List PlacedToken) {us : List PlacedToken}
    {keyword brace : PlacedToken} {name : String}
    (hprelude : isPrelude 0 (us.map PlacedToken.token)) (hkeyword : keyword.token = .atKeyword name)
    (hname : sameLetters name "extend" = false) (hbrace : brace.token = .leftBrace) :
    Goes ending (st, keyword :: (us ++ brace :: ts))
      (st.enter (if sameLetters name "media" then .media (serialize (us.map PlacedToken.token))
        else .atBlock name (serialize (us.map PlacedToken.token))) keyword.position, ts) := by
  obtain ⟨_, position⟩ := keyword
  obtain ⟨_, place⟩ := brace
  subst hkeyword hbrace
  rw [Goes, step]
  simp only [readAtRule, hname, spanPrelude_dropWhile hprelude ⟨.leftBrace, place⟩ rfl, serialize_lead]
  cases sameLetters name "media" <;> rfl

/-- A name is taken up to its colon. -/
lemma readPropertyName_run {us : List PlacedToken} {colon : PlacedToken} (start : Position)
    (hname : ∀ u ∈ us, u.token ≠ .colon ∧ endsName u.token = false) (hcolon : colon.token = .colon) :
    readPropertyName start (us ++ colon :: ts) = .ok (us.map PlacedToken.token, ts) := by
  induction us with
  | nil =>
    obtain ⟨_, place⟩ := colon
    subst hcolon
    rfl
  | cons u us ih =>
    obtain ⟨⟨hne, hends⟩, hnames⟩ := List.forall_mem_cons.1 hname
    obtain ⟨token, place⟩ := u
    rw [List.cons_append, readPropertyName.eq_def]
    dsimp only at hne hends ⊢
    split
    · exact absurd rfl hne
    · cases hends
    · cases hends
    · cases hends
    · rw [ih hnames]
      rfl

/-- The tokens in front of the first colon are the name of a declaration, those behind it are its value. -/
lemma goes_declaration (ending : Position) (st : State) (ts : List PlacedToken) {us vs : List PlacedToken}
    {colon semicolon : PlacedToken} (hnone : startsBlock 0 (us ++ colon :: (vs ++ semicolon :: ts)) = false)
    (hplain : ((us ++ colon :: vs).map PlacedToken.token).head?.all isPlain)
    (hname : ∀ u ∈ us, u.token ≠ .colon ∧ endsName u.token = false) (hcolon : colon.token = .colon)
    (hne : (serialize (us.map PlacedToken.token)).isEmpty = false)
    (hvalue : isPrelude 0 (vs.map PlacedToken.token)) (hsemicolon : semicolon.token = .semicolon) :
    ∃ position, Goes ending (st, us ++ colon :: (vs ++ semicolon :: ts))
      (st.add (.declaration (serialize (us.map PlacedToken.token))
        (serialize (stripFlag "important" (vs.map PlacedToken.token)).1)
        (stripFlag "important" (vs.map PlacedToken.token)).2 position), ts) := by
  obtain ⟨_, place⟩ := semicolon
  subst hsemicolon
  refine ⟨location ending (us ++ colon :: (vs ++ ⟨.semicolon, place⟩ :: ts)), ?_⟩
  have hstep : step ending st (us ++ colon :: (vs ++ ⟨.semicolon, place⟩ :: ts)) =
      readDeclaration ending st (us ++ colon :: (vs ++ ⟨.semicolon, place⟩ :: ts)) := by
    cases us with
    | nil => rw [List.nil_append, step_of_isPlain (by simpa using hplain), if_neg (by simpa using hnone)]
    | cons u us => rw [List.cons_append, step_of_isPlain (by simpa using hplain), if_neg (by simpa using hnone)]
  rw [Goes, hstep, readDeclaration]
  dsimp only
  rw [readPropertyName_run _ hname hcolon]
  simp only [bind, Except.bind, hne, spanPrelude_run hvalue ⟨.semicolon, place⟩ rfl]
  rfl

/-- A closing brace makes a statement of the innermost block. -/
lemma goes_close (frame : Frame) {frames : List Frame} {s : Statement} {brace : PlacedToken}
    (hframes : st.frames = frame :: frames) (hclose : frame.header.close frame.position st.statements = .ok s)
    (hbrace : brace.token = .rightBrace) : Goes ending (st, brace :: ts) (⟨frames, frame.before ++ [s]⟩, ts) := by
  obtain ⟨_, place⟩ := brace
  subst hbrace
  rw [Goes, step]
  simp only [closeBlock, hframes, hclose]
  rfl

end ScssExtend.Parser
