import ScssExtend.Proofs.Selector.Composition
import ScssExtend.Stylesheet.Parser

/-!
# How the statements of a stylesheet nest

`StepsTo` says once what a step of the reader can do: it ends the stylesheet, adds a statement without a block,
opens a block or closes one (`stepsTo_of_step`). So the tree that is read has a shape: steps of keyframes stand
directly in `@keyframes` and nowhere else, where no rule stands; a rule has a selector that was read; no at-rule is
called `extend`, and none with a block that is kept by its name `media` (`Stylesheet.isNested_of_parse`).
-/

namespace ScssExtend

namespace Parser

/-- Steps of keyframes stand in a block with this header. -/
def Header.isKeyframes : Header → Bool
  | .atBlock name _ => "keyframes".toList.isSuffixOf (name.toList.map Char.toLower)
  | _ => false

/-- Keyframe steps are read where the innermost header says so. -/
lemma inKeyframes_eq (st : State) : st.inKeyframes = st.frames.head?.any fun f => f.header.isKeyframes := by
  unfold State.inKeyframes
  split
  · next heq => simp [heq, Header.isKeyframes]
  · next hne =>
    cases hframes : st.frames with
    | nil => rfl
    | cons frame frames =>
      obtain ⟨header, position, before⟩ := frame
      cases header with
      | atBlock name preludeText => exact absurd hframes (hne name preludeText position before frames)
      | _ => rfl

/-- A block with this header can be opened where keyframe steps stand, or where they do not. -/
def Header.Fits (inKeyframes : Bool) : Header → Prop
  | .rule _ => inKeyframes = false
  | .keyframe _ => inKeyframes = true
  | .media _ => True
  | .atBlock name _ => Text.sameLetters name "extend" = false ∧ Text.sameLetters name "media" = false

end Parser

mutual

/-- The statement can be read in a block in which keyframe steps stand, or in one in which they do not. -/
def Statement.IsNested (inKeyframes : Bool) : Statement → Prop
  | .rule selector body _ => inKeyframes = false ∧ selector.IsComposed ∧
    (∀ x ∈ selector.selectors, ∀ k ∈ x.links, k.compound.IsArranged) ∧ Statement.BodyNested false body
  | .media _ body _ => Statement.BodyNested false body
  | .keyframe _ body _ => inKeyframes = true ∧ Statement.BodyNested false body
  | .atRule name _ _ => Text.sameLetters name "extend" = false
  | .atBlock name preludeText body _ => (Parser.Header.atBlock name preludeText).Fits inKeyframes ∧
    Statement.BodyNested (Parser.Header.atBlock name preludeText).isKeyframes body
  | .declaration name _ _ _ => name.isEmpty = false
  | .extend .. => True

/-- All statements of the block can be read in it. -/
def Statement.BodyNested (inKeyframes : Bool) : List Statement → Prop
  | [] => True
  | s :: ss => s.IsNested inKeyframes ∧ Statement.BodyNested inKeyframes ss

end

/-- All statements of the stylesheet can be read where they stand. -/
def Stylesheet.IsNested (sheet : Stylesheet) : Prop :=
  Statement.BodyNested false sheet.statements

namespace Parser

open Grammar

/-- A statement that can be read in a block may be added to it. -/
lemma bodyNested_concat {inKeyframes : Bool} {body : List Statement} {s : Statement}
    (hbody : Statement.BodyNested inKeyframes body) (hs : s.IsNested inKeyframes) :
    Statement.BodyNested inKeyframes (body ++ [s]) := by
  induction body with
  | nil => exact ⟨hs, trivial⟩
  | cons t ts ih => exact ⟨hbody.1, ih hbody.2⟩

/-! ## What a step can do -/

/-- What a step comes to from a state. -/
inductive StepsTo (st : State) : Step → Prop where
  | done {rest} : st.frames = [] → StepsTo st (.done st.statements rest)
  | skip {rest} : StepsTo st (.next st rest)
  | add {s rest} : s.ruleSelectors = [] → (∀ inKeyframes, s.IsNested inKeyframes) →
    StepsTo st (.next (st.add s) rest)
  | enter {header position rest} : header.Fits st.inKeyframes →
    StepsTo st (.next (st.enter header position) rest)
  | close {frame frames s rest} : st.frames = frame :: frames →
    frame.header.close frame.position st.statements = .ok s →
    StepsTo st (.next ⟨frames, frame.before ++ [s]⟩ rest)

variable {ending position : Position} {st : State} {ts : List PlacedToken} {r : Step}

/-- Opening a block enters it. -/
lemma stepsTo_of_openBlock {header : Header} (hheader : header.Fits st.inKeyframes)
    (h : openBlock ending st header position ts = .ok r) : StepsTo st r := by
  unfold openBlock at h
  split at h <;> cases h
  exact .enter hheader

/-- At the end of the input a step is the last one. -/
lemma stepsTo_of_finish (h : finish ending st ts = .ok r) : StepsTo st r := by
  unfold finish at h
  split at h
  · next hframes =>
    cases h
    exact .done hframes
  · cases h

/-- A closing brace closes the innermost block. -/
lemma stepsTo_of_closeBlock (h : closeBlock st position ts = .ok r) : StepsTo st r := by
  unfold closeBlock at h
  split at h
  · cases h
  · next frame frames hframes =>
    obtain ⟨s, hclose, h⟩ := bind_eq_ok.1 h
    cases h
    exact .close hframes hclose

/-- An at-rule is added, skipped or entered. -/
lemma stepsTo_of_readAtRule (h : readAtRule ending st ts = .ok r) : StepsTo st r := by
  unfold readAtRule at h
  split at h
  · dsimp only at h
    split at h
    · unfold readExtend at h
      dsimp only at h
      split at h
      · cases h
      · obtain ⟨targets, -, h⟩ := bind_eq_ok.1 h
        cases h
        exact .add rfl fun _ => trivial
    · next hextend =>
      rw [Bool.not_eq_true] at hextend
      split at h
      · cases h
        exact .add rfl fun _ => hextend
      · split at h
        · refine stepsTo_of_openBlock ?_ h
          trivial
        · next hmedia =>
          refine stepsTo_of_openBlock ?_ h
          exact ⟨hextend, Bool.eq_false_iff.2 hmedia⟩
  · cases h

/-- A qualified rule is entered. -/
lemma stepsTo_of_readQualifiedRule (h : readQualifiedRule ending st ts = .ok r) : StepsTo st r := by
  refine stepsTo_of_openBlock ?_ h
  split
  · next hkeyframes => exact hkeyframes
  · next hkeyframes => exact Bool.eq_false_iff.2 hkeyframes

/-- A declaration is added. -/
lemma stepsTo_of_readDeclaration (h : readDeclaration ending st ts = .ok r) : StepsTo st r := by
  obtain ⟨⟨name, ts'⟩, -, h⟩ := bind_eq_ok.1 h
  dsimp only at h
  split at h
  · cases h
  · next hname =>
    cases h
    exact .add rfl fun _ => by simpa [Statement.IsNested] using hname

/-- Every step ends the run, or skips, adds, enters or closes something. -/
lemma stepsTo_of_step (h : step ending st ts = .ok r) : StepsTo st r := by
  cases ts with
  | nil => exact stepsTo_of_finish h
  | cons t ts =>
    unfold step at h
    dsimp only at h
    split at h
    · cases h
      exact .skip
    · cases h
      exact .skip
    · exact stepsTo_of_finish h
    · exact stepsTo_of_closeBlock h
    · exact stepsTo_of_readAtRule h
    · split at h
      · exact stepsTo_of_readQualifiedRule h
      · exact stepsTo_of_readDeclaration h

/-! ## What a run keeps -/

/-- The open blocks can be opened where they are, and so can what was read before each of them. -/
def FramesNested : List Frame → Prop
  | [] => True
  | f :: fs => f.header.Fits (State.inKeyframes ⟨fs, []⟩) ∧
    Statement.BodyNested (State.inKeyframes ⟨fs, []⟩) f.before ∧ FramesNested fs

/-- All that was read so far can be read where it stands. -/
structure State.IsNested (st : State) : Prop where
  statements : Statement.BodyNested st.inKeyframes st.statements
  frames : FramesNested st.frames

/-- A block that closes makes a statement that can be read where the block was opened. -/
lemma isNested_of_close {inKeyframes : Bool} {header : Header} {body : List Statement} {s : Statement}
    (h : header.close position body = .ok s) (hheader : header.Fits inKeyframes)
    (hbody : Statement.BodyNested header.isKeyframes body) : s.IsNested inKeyframes := by
  cases header with
  | rule selectorText =>
    obtain ⟨selector, hparse, h⟩ := bind_eq_ok.1 h
    cases h
    exact ⟨hheader, SelectorList.isComposed_of_parse hparse, SelectorList.isArranged_of_parse hparse, hbody⟩
  | media query =>
    cases h
    exact hbody
  | keyframe step =>
    cases h
    exact ⟨hheader, hbody⟩
  | atBlock name preludeText =>
    cases h
    exact ⟨hheader, hbody⟩

/-- A step keeps every statement nested where it can be read. -/
lemma isNested_of_stepsTo {st' : State} {rest : List PlacedToken} (hst : st.IsNested)
    (h : StepsTo st (.next st' rest)) : st'.IsNested := by
  cases h with
  | skip => exact hst
  | add _ hs => exact ⟨bodyNested_concat hst.statements (hs _), hst.frames⟩
  | enter hheader => exact ⟨trivial, hheader, hst.statements, hst.frames⟩
  | close hframes hclose =>
    obtain ⟨hbody, hnested⟩ := hst
    rw [hframes] at hnested
    obtain ⟨hheader, hbefore, hnested⟩ := hnested
    rw [inKeyframes_eq, hframes] at hbody
    exact ⟨bodyNested_concat hbefore (isNested_of_close hclose hheader hbody), hnested⟩

/-- Nothing has been read out of place at the beginning. -/
lemma isNested_initial : State.initial.IsNested := ⟨trivial, trivial⟩

/-- A run gives statements that can all be read where they stand. -/
lemma bodyNested_of_run {statements : List Statement} {rest : List PlacedToken} (hst : st.IsNested)
    (h : run ending st ts = .ok (statements, rest)) : Statement.BodyNested false statements := by
  fun_induction run ending st ts with
  | case1 => cases h
  | case2 st ts statements' rest' hstep =>
    cases h
    have hbody := hst.statements
    cases stepsTo_of_step hstep with
    | done hframes =>
      rwa [inKeyframes_eq, hframes] at hbody
  | case3 st ts st' rest' hstep hlt ih => exact ih (isNested_of_stepsTo hst (stepsTo_of_step hstep)) h

end Parser

/-- Whatever is read as a stylesheet can be read where it stands. -/
theorem Stylesheet.isNested_of_parse {source : String} {sheet : Stylesheet}
    (h : Stylesheet.parse source = .ok sheet) : sheet.IsNested := by
  obtain ⟨⟨statements, rest⟩, hrun, h⟩ := Grammar.bind_eq_ok.1 h
  cases h
  exact Parser.bodyNested_of_run Parser.isNested_initial hrun

end ScssExtend
