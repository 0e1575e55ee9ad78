import ScssExtend.Proofs.Stylesheet.Nesting

/-!
# Stylesheets that are read hold composed selectors

The selector of a rule is read when its block closes, so a rule never holds a list that is not composed. Every
step of the reader keeps this (`Parser.isComposed_of_step`), and so do its runs: whatever is read as a
stylesheet consists of rules with composed selectors (`Stylesheet.isComposed_of_parse`).
-/

namespace ScssExtend

/-- The rules in a block have composed selectors. -/
def Statement.BodyComposed (body : List Statement) : Prop :=
  ∀ l ∈ Statement.bodySelectors body, l.IsComposed

/-- The rules of the stylesheet have composed selectors. -/
def Stylesheet.IsComposed (sheet : Stylesheet) : Prop :=
  ∀ l ∈ sheet.ruleSelectors, l.IsComposed

namespace Parser

open Grammar

/-- The rules read so far have composed selectors, those in the enclosing blocks included. -/
structure State.IsComposed (st : State) : Prop where
  statements : Statement.BodyComposed st.statements
  frames : ∀ f ∈ st.frames, Statement.BodyComposed f.before

/-- A step comes to a stylesheet or a state with composed selectors. -/
def Step.IsComposed : Step → Prop
  | done statements _ => Statement.BodyComposed statements
  | next state _ => state.IsComposed

/-- An empty block is composed. -/
lemma bodyComposed_nil : Statement.BodyComposed [] := by
  intro l hl
  cases hl

/-- A composed statement may be added to a composed block. -/
lemma bodyComposed_concat {body : List Statement} {s : Statement} (hbody : Statement.BodyComposed body)
    (hs : ∀ l ∈ s.ruleSelectors, l.IsComposed) : Statement.BodyComposed (body ++ [s]) := by
  induction body with
  | nil => simpa [Statement.BodyComposed, Statement.bodySelectors] using hs
  | cons t ts ih =>
    rw [Statement.BodyComposed, Statement.bodySelectors] at hbody
    obtain ⟨ht, hts⟩ := List.forall_mem_append.1 hbody
    rw [Statement.BodyComposed, List.cons_append, Statement.bodySelectors]
    exact List.forall_mem_append.2 ⟨ht, ih hts⟩

/-- A statement without rules keeps a state composed. -/
lemma State.IsComposed.add {st : State} {s : Statement} (h : st.IsComposed) (hs : s.ruleSelectors = []) :
    (st.add s).IsComposed := by
  refine ⟨bodyComposed_concat h.statements ?_, h.frames⟩
  rw [hs]
  exact List.forall_mem_nil _

/-- A block that closes makes a statement with composed selectors. -/
lemma isComposed_of_close {header : Header} {position : Position} {body : List Statement} {s : Statement}
    (h : header.close position body = .ok s) (hbody : Statement.BodyComposed body) :
    ∀ l ∈ s.ruleSelectors, l.IsComposed := by
  cases header with
  | rule selectorText =>
    obtain ⟨selector, hparse, h⟩ := bind_eq_ok.1 h
    cases h
    rw [Statement.ruleSelectors]
    exact List.forall_mem_cons.2 ⟨SelectorList.isComposed_of_parse hparse, hbody⟩
  | media query =>
    cases h
    exact hbody
  | atBlock name preludeText =>
    cases h
    exact hbody
  | keyframe step =>
    cases h
    exact bodyComposed_nil

/-- A step keeps a state composed. -/
lemma isComposed_of_step {ending : Position} {st : State} {ts : List PlacedToken} {r : Step}
    (hst : st.IsComposed) (h : step ending st ts = .ok r) : r.IsComposed := by
  cases stepsTo_of_step h with
  | done => exact hst.statements
  | skip => exact hst
  | add hs => exact hst.add hs
  | enter => exact ⟨bodyComposed_nil, List.forall_mem_cons.2 ⟨hst.statements, hst.frames⟩⟩
  | close heq hclose =>
    have hframes := hst.frames
    rw [heq] at hframes
    obtain ⟨hframe, hframes⟩ := List.forall_mem_cons.1 hframes
    exact ⟨bodyComposed_concat hframe (isComposed_of_close hclose hst.statements), hframes⟩

/-- A run gives a composed block. -/
lemma bodyComposed_of_run {ending : Position} {st : State} {ts rest : List PlacedToken}
    {statements : List Statement} (hst : st.IsComposed) (h : run ending st ts = .ok (statements, rest)) :
    Statement.BodyComposed statements := by
  fun_induction run ending st ts with
  | case1 => cases h
  | case2 st ts statements' rest' hstep =>
    cases h
    exact isComposed_of_step hst hstep
  | case3 st ts st' rest' hstep hlt ih => exact ih (isComposed_of_step hst hstep) h

end Parser

/-- Whatever is read as a stylesheet has composed selectors. -/
theorem Stylesheet.isComposed_of_parse {source : String} {sheet : Stylesheet}
    (h : Stylesheet.parse source = .ok sheet) : sheet.IsComposed := by
  obtain ⟨⟨statements, rest⟩, hrun, h⟩ := Grammar.bind_eq_ok.1 h
  cases h
  exact Parser.bodyComposed_of_run ⟨Parser.bodyComposed_nil, List.forall_mem_nil _⟩ hrun

end ScssExtend
