import Mathlib.Tactic.Lemma
import ScssExtend.Stylesheet

/-!
# Rules and skeletons

`Stylesheet.rules` lists the style rules outside keyframe steps in document order, each with its selectors and
its place. `Stylesheet.skeleton` is the rest: the tree in which the rules have no selectors. A stylesheet is
determined by its skeleton and its rules (`Stylesheet.eq_of_skeleton_of_rules`).
-/

namespace ScssExtend

/-- A style rule without its block. -/
structure RuleHead where
  selector : SelectorList
  position : Position
  deriving DecidableEq

mutual

/-- The style rules in a statement, the outer rule first; keyframe steps are left out. -/
def Statement.rules : Statement → List RuleHead
  | .rule selector body position => ⟨selector, position⟩ :: Statement.bodyRules body
  | .media _ body _ | .atBlock _ _ body _ => Statement.bodyRules body
  | .keyframe .. | .atRule .. | .declaration .. | .extend .. => []

/-- The style rules in a block outside keyframe steps, in document order. -/
def Statement.bodyRules : List Statement → List RuleHead
  | [] => []
  | s :: ss => s.rules ++ Statement.bodyRules ss

end

mutual

/-- The statement without the selectors of the rules in it; keyframe steps stay as they are. -/
def Statement.skeleton : Statement → Statement
  | .rule _ body position => .rule ⟨[], .start⟩ (Statement.bodySkeleton body) position
  | .media query body position => .media query (Statement.bodySkeleton body) position
  | .atBlock name preludeText body position =>
    .atBlock name preludeText (Statement.bodySkeleton body) position
  | .keyframe step body position => .keyframe step body position
  | .atRule name preludeText position => .atRule name preludeText position
  | .declaration name value important position => .declaration name value important position
  | .extend targets optional position => .extend targets optional position

/-- The skeletons of the statements of a block. -/
def Statement.bodySkeleton : List Statement → List Statement
  | [] => []
  | s :: ss => s.skeleton :: Statement.bodySkeleton ss

end

namespace Stylesheet

/-- The style rules outside keyframe steps, in document order. -/
def rules (sheet : Stylesheet) : List RuleHead :=
  Statement.bodyRules sheet.statements

/-- The stylesheet without the selectors of its rules. -/
def skeleton (sheet : Stylesheet) : Stylesheet :=
  ⟨Statement.bodySkeleton sheet.statements⟩

end Stylesheet

namespace Statement

mutual

/-- A statement has as many rules as its skeleton. -/
theorem length_rules_skeleton : ∀ s : Statement, s.skeleton.rules.length = s.rules.length
  | .rule _ body _ => congrArg Nat.succ (length_bodyRules_bodySkeleton body)
  | .media _ body _ => length_bodyRules_bodySkeleton body
  | .atBlock _ _ body _ => length_bodyRules_bodySkeleton body
  | .keyframe .. => rfl
  | .atRule .. => rfl
  | .declaration .. => rfl
  | .extend .. => rfl

/-- The skeleton still tells how many rules there are. -/
theorem length_bodyRules_bodySkeleton : ∀ body : List Statement,
    (bodyRules (bodySkeleton body)).length = (bodyRules body).length
  | [] => rfl
  | s :: ss => by
    rw [bodySkeleton, bodyRules, bodyRules, List.length_append, List.length_append,
      length_rules_skeleton s, length_bodyRules_bodySkeleton ss]

end

mutual

/-- A statement is determined by its skeleton and its rules. -/
theorem eq_of_skeleton_of_rules : ∀ s s' : Statement, s.skeleton = s'.skeleton → s.rules = s'.rules →
    s = s'
  | .rule selector body position, s', hs, hr => by
    cases s' with
    | rule selector' body' position' =>
      rw [skeleton, skeleton] at hs
      rw [rules, rules] at hr
      obtain ⟨hhead, hbody⟩ := List.cons.inj hr
      cases hhead
      rw [body_eq_of_skeleton_of_rules body body' (Statement.rule.inj hs).2.1 hbody]
    | _ => cases hs
  | .media query body position, s', hs, hr => by
    cases s' with
    | media query' body' position' =>
      rw [skeleton, skeleton] at hs
      obtain ⟨rfl, hbody, rfl⟩ := Statement.media.inj hs
      rw [body_eq_of_skeleton_of_rules body body' hbody hr]
    | _ => cases hs
  | .atBlock name preludeText body position, s', hs, hr => by
    cases s' with
    | atBlock name' preludeText' body' position' =>
      rw [skeleton, skeleton] at hs
      obtain ⟨rfl, rfl, hbody, rfl⟩ := Statement.atBlock.inj hs
      rw [body_eq_of_skeleton_of_rules body body' hbody hr]
    | _ => cases hs
  -- the other statements are their own skeletons
  | .keyframe .., s', hs, _ => by cases s' <;> cases hs; rfl
  | .atRule .., s', hs, _ => by cases s' <;> cases hs; rfl
  | .declaration .., s', hs, _ => by cases s' <;> cases hs; rfl
  | .extend .., s', hs, _ => by cases s' <;> cases hs; rfl

/-- A block is determined by its skeleton and its rules. -/
theorem body_eq_of_skeleton_of_rules : ∀ body body' : List Statement,
    bodySkeleton body = bodySkeleton body' → bodyRules body = bodyRules body' → body = body'
  | [], [], _, _ => rfl
  | [], _ :: _, hs, _ => by cases hs
  | _ :: _, [], hs, _ => by cases hs
  | s :: ss, s' :: ss', hs, hr => by
    rw [bodySkeleton, bodySkeleton] at hs
    obtain ⟨hhead, htail⟩ := List.cons.inj hs
    have hlength : s.rules.length = s'.rules.length := by
      rw [← length_rules_skeleton s, hhead, length_rules_skeleton s']
    rw [bodyRules, bodyRules] at hr
    obtain ⟨hrs, hrss⟩ := List.append_inj hr hlength
    rw [eq_of_skeleton_of_rules s s' hhead hrs, body_eq_of_skeleton_of_rules ss ss' htail hrss]

end

end Statement

/-- Stylesheets with the same skeleton and the same rules are equal. -/
theorem Stylesheet.eq_of_skeleton_of_rules {sheet sheet' : Stylesheet}
    (hs : sheet.skeleton = sheet'.skeleton) (hr : sheet.rules = sheet'.rules) : sheet = sheet' := by
  obtain ⟨body⟩ := sheet
  obtain ⟨body'⟩ := sheet'
  exact congrArg Stylesheet.mk
    (Statement.body_eq_of_skeleton_of_rules body body' (Stylesheet.mk.inj hs) hr)

end ScssExtend
