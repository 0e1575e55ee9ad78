import ScssExtend.Proofs.Extension.Failure
import ScssExtend.Proofs.Stylesheet.Rules

/-!
# Walks through a stylesheet

A walk resolves the rules of a stylesheet one by one in document order (`Table.rules_walk`), so it is told by what
becomes of each rule on its own: `Table.failure?`, `Table.rewrite` and `Table.question`. The rest of the tree
stays as it is (`Table.skeleton_walk`). `Table.walk_frame` puts this together: which rules are rewritten, which
failure ends the walk, what the grammar is asked, and that nothing else matters of the grammar.
-/

namespace ScssExtend

/-- The list of a rule after the outcome; a rule that failed keeps its list. -/
def RuleOutcome.list (before : SelectorList) : RuleOutcome → SelectorList
  | replaced after => after
  | kept | failed _ => before

/-- The text that the grammar was asked to read in this step, and its place. -/
def Event.question? : Event → Option (String × Position)
  | consulted text position => some (text, position)
  | extending .. | matched .. | unified .. | replaced .. => none

/-- True of the steps of extending a selector: they ask the grammar nothing and replace nothing. -/
def Event.isInner : Event → Bool
  | extending .. | matched .. | unified .. => true
  | consulted .. | replaced .. => false

/-- The steps of extending a selector ask the grammar nothing. -/
lemma Event.question?_of_isInner {event : Event} (h : event.isInner) : event.question? = none := by
  cases event with
  | extending => rfl
  | matched => rfl
  | unified => rfl
  | consulted => cases h
  | replaced => rfl

namespace Walk

variable {α : Type}

/-- What the grammar was asked, in order. -/
def questions (w : Walk α) : List (String × Position) :=
  w.events.filterMap Event.question?

/-- The walk continued by `v` unless it failed; `rest` is what stands in the tree before `v`. -/
def followedBy (w : Walk (List α)) (rest : List α) (v : Walk (List α)) : Walk (List α) :=
  match w.failure with
  | some error => ⟨w.tree ++ rest, some error, w.events⟩
  | none => ⟨w.tree ++ v.tree, v.failure, w.events ++ v.events⟩

/-- A walk is determined by its tree, its failure and its events. -/
lemma eq_of_parts {v w : Walk α} (htree : v.tree = w.tree) (hfailure : v.failure = w.failure)
    (hevents : v.events = w.events) : v = w := by
  obtain ⟨tree, failure, events⟩ := v
  cases htree
  cases hfailure
  cases hevents
  rfl

end Walk

namespace Table

/-! ## One rule on its own -/

section Alone

variable (t : Table) (grammar : SelectorGrammar) (r : RuleHead)

/-- The error of the rule, when it fails. -/
def failure? : Option ExtendError :=
  (t.resolveRule grammar r.selector r.position).1.error?

/-- The rule does not fail. -/
def succeeds : Bool :=
  (t.failure? grammar r).isNone

/-- The rule with what its list becomes. -/
def rewrite : RuleHead :=
  { r with selector := (t.resolveRule grammar r.selector r.position).1.list r.selector }

/-- The steps that are logged for the rule. -/
def steps : List Event :=
  (t.resolveRule grammar r.selector r.position).2

/-- The grammar is asked about the list that a rule's list becomes, when there is something left of it and it is
another one. -/
def question : List (String × Position) :=
  if (t.resolved r.selector).isEmpty ∨ (t.resolved r.selector).eqv r.selector then []
  else [((t.resolved r.selector).text, r.selector.position)]

end Alone

variable {t : Table} {grammar : SelectorGrammar}

/-- Extending a compound logs inner steps only. -/
lemma isInner_of_mem_extendCompoundEvents {seen : SeenSet} {c : Compound} {event : Event}
    (h : event ∈ t.extendCompoundEvents seen c) : event.isInner := by
  fun_induction extendCompoundEvents t seen c with
  | case1 seen c ih =>
    obtain rfl | h := List.mem_cons.1 h
    · rfl
    obtain ⟨⟨e, he⟩, -, h⟩ := List.mem_flatMap.1 h
    obtain rfl | h := List.mem_cons.1 h
    · rfl
    obtain rfl | h := List.mem_cons.1 h
    · rfl
    cases hx : e.outcome? c with
    | none =>
      rw [hx] at h
      cases h
    | some x =>
      rw [hx] at h
      obtain ⟨d, -, h⟩ := List.mem_flatMap.1 h
      exact ih e he d h

/-- Extending the selectors of a list logs inner steps only. -/
lemma isInner_of_mem_steps {list : SelectorList} {event : Event}
    (h : event ∈ list.selectors.flatMap t.extendSelectorEvents) : event.isInner := by
  obtain ⟨x, -, h⟩ := List.mem_flatMap.1 h
  obtain ⟨c, -, h⟩ := List.mem_flatMap.1 h
  exact isInner_of_mem_extendCompoundEvents h

/-- On its own a rule asks the grammar what `question` says. -/
lemma questions_steps (r : RuleHead) :
    (t.steps grammar r).filterMap Event.question? = t.question r := by
  obtain ⟨list, position⟩ := r
  have hsteps : (list.selectors.flatMap t.extendSelectorEvents).filterMap Event.question? = [] :=
    List.filterMap_eq_nil_iff.2 fun event h => Event.question?_of_isInner (isInner_of_mem_steps h)
  by_cases hne : list.selectors = []
  · obtain ⟨selectors, place⟩ := list
    subst hne
    rfl
  rw [steps, question, resolveRule_eq hne]
  split
  · next heqv => rw [if_pos (.inr heqv), hsteps]
  · next heqv =>
    split
    · next hempty =>
      rw [if_pos (.inl hempty), List.filterMap_append, hsteps]
      rfl
    · next hempty =>
      rw [if_neg (not_or.2 ⟨hempty, heqv⟩)]
      cases grammar (t.resolved list).text list.position <;>
        simp [hsteps, Event.question?]

/-- Nothing else matters of the grammar than its answers to the questions. -/
lemma resolveRule_congr {grammar' : SelectorGrammar} {list : SelectorList} {position : Position}
    (h : ∀ q ∈ t.question ⟨list, position⟩, grammar' q.1 q.2 = grammar q.1 q.2) :
    t.resolveRule grammar' list position = t.resolveRule grammar list position := by
  by_cases hne : list.selectors = []
  · obtain ⟨selectors, place⟩ := list
    subst hne
    rfl
  rw [resolveRule_eq hne, resolveRule_eq hne]
  split
  · rfl
  · next heqv =>
    split
    · rfl
    · next hempty =>
      rw [question, if_neg (not_or.2 ⟨hempty, heqv⟩)] at h
      rw [h _ (List.mem_singleton_self _)]

/-! ## Rules one after the other -/

/-- The walk through a list of rules. -/
def walkRules (t : Table) (grammar : SelectorGrammar) : List RuleHead → Walk (List RuleHead)
  | [] => .past []
  | r :: rs =>
    match t.failure? grammar r with
    | some error => ⟨r :: rs, some error, t.steps grammar r⟩
    | none =>
      let w := t.walkRules grammar rs
      ⟨t.rewrite grammar r :: w.tree, w.failure, t.steps grammar r ++ w.events⟩

section Rules

variable {r : RuleHead} {rs ss : List RuleHead}

/-- A rule that fails ends the walk, and stays as it was. -/
lemma walkRules_of_some {error : ExtendError} (h : t.failure? grammar r = some error) :
    t.walkRules grammar (r :: rs) = ⟨r :: rs, some error, t.steps grammar r⟩ := by
  rw [walkRules, h]

/-- A rule that does not fail is rewritten, and the walk goes on. -/
lemma walkRules_of_none (h : t.failure? grammar r = none) : t.walkRules grammar (r :: rs) =
    ⟨t.rewrite grammar r :: (t.walkRules grammar rs).tree, (t.walkRules grammar rs).failure,
      t.steps grammar r ++ (t.walkRules grammar rs).events⟩ := by
  rw [walkRules, h]

/-- A walk through two lists goes on in the second one unless it failed in the first. -/
lemma walkRules_append : t.walkRules grammar (rs ++ ss) =
    (t.walkRules grammar rs).followedBy ss (t.walkRules grammar ss) := by
  induction rs with
  | nil => rfl
  | cons r rs ih =>
    rw [List.cons_append]
    cases hr : t.failure? grammar r with
    | some error => rw [walkRules_of_some hr, walkRules_of_some hr]; rfl
    | none =>
      rw [walkRules_of_none hr, walkRules_of_none hr, ih]
      cases hrs : (t.walkRules grammar rs).failure <;> simp [Walk.followedBy, hrs]

/-- The rules before the first one that fails are rewritten. -/
lemma tree_walkRules : (t.walkRules grammar rs).tree =
    (rs.takeWhile (t.succeeds grammar)).map (t.rewrite grammar) ++
      rs.dropWhile (t.succeeds grammar) := by
  induction rs with
  | nil => rfl
  | cons r rs ih =>
    cases hr : t.failure? grammar r with
    | some error => rw [walkRules_of_some hr]; simp [succeeds, hr]
    | none => rw [walkRules_of_none hr, ih]; simp [succeeds, hr]

/-- The failure of a walk is that of its first rule that fails. -/
lemma failure_walkRules : (t.walkRules grammar rs).failure = rs.findSome? (t.failure? grammar) := by
  induction rs with
  | nil => rfl
  | cons r rs ih =>
    cases hr : t.failure? grammar r with
    | some error => rw [walkRules_of_some hr]; simp [hr]
    | none => rw [walkRules_of_none hr, ih]; simp [hr]

/-- The questions of a walk are those of the rules before the first that fails, and of that rule. -/
lemma questions_walkRules : (t.walkRules grammar rs).questions =
    ((rs.takeWhile (t.succeeds grammar)) ++
      (rs.dropWhile (t.succeeds grammar)).take 1).flatMap t.question := by
  induction rs with
  | nil => rfl
  | cons r rs ih =>
    rw [Walk.questions] at ih ⊢
    cases hr : t.failure? grammar r with
    | some error => rw [walkRules_of_some hr, questions_steps]; simp [succeeds, hr]
    | none => rw [walkRules_of_none hr, List.filterMap_append, questions_steps, ih]; simp [succeeds, hr]

/-- A walk depends on the grammar only in the answers to its questions. -/
lemma walkRules_congr {grammar' : SelectorGrammar}
    (h : ∀ q ∈ (t.walkRules grammar rs).questions, grammar' q.1 q.2 = grammar q.1 q.2) :
    t.walkRules grammar' rs = t.walkRules grammar rs := by
  induction rs with
  | nil => rfl
  | cons r rs ih =>
    rw [Walk.questions] at h
    have same (hq : ∀ q ∈ t.question r, grammar' q.1 q.2 = grammar q.1 q.2) :
        t.failure? grammar' r = t.failure? grammar r ∧ t.rewrite grammar' r = t.rewrite grammar r ∧
          t.steps grammar' r = t.steps grammar r := by
      rw [failure?, rewrite, steps, resolveRule_congr hq]
      exact ⟨rfl, rfl, rfl⟩
    cases hr : t.failure? grammar r with
    | some error =>
      rw [walkRules_of_some hr, questions_steps] at h
      obtain ⟨hfailure, -, hsteps⟩ := same h
      rw [walkRules_of_some hr, walkRules_of_some (hfailure.trans hr), hsteps]
    | none =>
      rw [walkRules_of_none hr, List.filterMap_append, questions_steps] at h
      obtain ⟨hhead, htail⟩ := List.forall_mem_append.1 h
      obtain ⟨hfailure, hrewrite, hsteps⟩ := same hhead
      rw [walkRules_of_none hr, walkRules_of_none (hfailure.trans hr), hrewrite, hsteps, ih htail]

end Rules

/-! ## The tree -/

/-- A rule is walked before its block, and a failure leaves both as they were. -/
lemma walkStatement_rule (list : SelectorList) (body : List Statement) (position : Position) :
    t.walkStatement grammar (.rule list body position) =
      match t.failure? grammar ⟨list, position⟩ with
      | some error => ⟨.rule list body position, some error, t.steps grammar ⟨list, position⟩⟩
      | none => ⟨.rule (t.rewrite grammar ⟨list, position⟩).selector (t.walkBody grammar body).tree position,
          (t.walkBody grammar body).failure,
          t.steps grammar ⟨list, position⟩ ++ (t.walkBody grammar body).events⟩ := by
  rw [walkStatement, failure?, rewrite, steps]
  obtain ⟨outcome, events⟩ := t.resolveRule grammar list position
  cases outcome <;> rfl

mutual

/-- The rules of a walked statement are those of the walk through its rules. -/
theorem rules_walkStatement : ∀ s : Statement,
    (t.walkStatement grammar s).map Statement.rules = t.walkRules grammar s.rules
  | .rule list body position => by
    have ih := rules_walkBody body
    rw [Statement.rules, walkStatement_rule]
    cases hr : t.failure? grammar ⟨list, position⟩ with
    | some error => rw [walkRules_of_some hr]; rfl
    | none => rw [walkRules_of_none hr, ← ih]; rfl
  | .media _ body _ => rules_walkBody body
  | .atBlock _ _ body _ => rules_walkBody body
  | .keyframe .. => rfl
  | .atRule .. => rfl
  | .declaration .. => rfl
  | .extend .. => rfl

/-- A walk through a block goes through the rules in it. -/
theorem rules_walkBody : ∀ body : List Statement,
    (t.walkBody grammar body).map Statement.bodyRules = t.walkRules grammar (Statement.bodyRules body)
  | [] => rfl
  | s :: ss => by
    rw [Statement.bodyRules, walkRules_append, ← rules_walkStatement s, ← rules_walkBody ss, walkBody]
    dsimp only [Walk.followedBy, Walk.map]
    cases (t.walkStatement grammar s).failure <;> rfl

end

mutual

/-- A walk changes nothing of a statement but selectors. -/
theorem skeleton_walkStatement : ∀ s : Statement,
    (t.walkStatement grammar s).tree.skeleton = s.skeleton
  | .rule list body position => by
    rw [walkStatement_rule]
    cases t.failure? grammar ⟨list, position⟩ with
    | some error => rfl
    | none => exact congrArg (Statement.rule _ · position) (skeleton_walkBody body)
  | .media query body position => congrArg (Statement.media query · position) (skeleton_walkBody body)
  | .atBlock name preludeText body position =>
    congrArg (Statement.atBlock name preludeText · position) (skeleton_walkBody body)
  | .keyframe .. => rfl
  | .atRule .. => rfl
  | .declaration .. => rfl
  | .extend .. => rfl

/-- A walk changes nothing of a block but selectors. -/
theorem skeleton_walkBody : ∀ body : List Statement,
    Statement.bodySkeleton (t.walkBody grammar body).tree = Statement.bodySkeleton body
  | [] => rfl
  | s :: ss => by
    rw [walkBody]
    dsimp only
    cases (t.walkStatement grammar s).failure with
    | some error => exact congrArg (· :: Statement.bodySkeleton ss) (skeleton_walkStatement s)
    | none => exact congrArg₂ List.cons (skeleton_walkStatement s) (skeleton_walkBody ss)

end

/-- A walk through a stylesheet goes through its rules. -/
lemma rules_walk (sheet : Stylesheet) :
    (t.walk grammar sheet).map Stylesheet.rules = t.walkRules grammar sheet.rules :=
  rules_walkBody sheet.statements

/-- A walk leaves everything but the selectors of rules as it is. -/
lemma skeleton_walk (sheet : Stylesheet) : (t.walk grammar sheet).tree.skeleton = sheet.skeleton :=
  congrArg Stylesheet.mk (skeleton_walkBody sheet.statements)

/-- The whole walk depends on the grammar only in the answers to its questions. -/
lemma walk_congr {grammar' : SelectorGrammar} {sheet : Stylesheet}
    (h : ∀ q ∈ (t.walk grammar sheet).questions, grammar' q.1 q.2 = grammar q.1 q.2) :
    t.walk grammar' sheet = t.walk grammar sheet := by
  have hrules : (t.walk grammar' sheet).map Stylesheet.rules = (t.walk grammar sheet).map Stylesheet.rules := by
    rw [rules_walk, rules_walk]
    refine walkRules_congr ?_
    rw [← rules_walk]
    exact h
  have hskeleton : (t.walk grammar' sheet).tree.skeleton = (t.walk grammar sheet).tree.skeleton := by
    rw [skeleton_walk, skeleton_walk]
  have htree : (t.walk grammar' sheet).tree = (t.walk grammar sheet).tree :=
    Stylesheet.eq_of_skeleton_of_rules hskeleton (congrArg Walk.tree hrules)
  obtain ⟨-, hfailure, hevents⟩ := Walk.mk.inj hrules
  exact Walk.eq_of_parts htree hfailure hevents

/-- A walk leaves the tree as it is but for the lists of its rules. The rules before the first one that fails on
its own have the lists that they get on their own; that rule and those behind it keep theirs. The failure is that
of this rule, and there is none when no rule fails. The grammar is asked about the rules up to this one, for each
of them once when something else is left of its list and never otherwise, and what it answers to other questions
does not matter. -/
theorem walk_frame (t : Table) (grammar : SelectorGrammar) (sheet : Stylesheet) :
    (t.walk grammar sheet).tree.skeleton = sheet.skeleton ∧
    (t.walk grammar sheet).tree.rules =
      (sheet.rules.takeWhile (t.succeeds grammar)).map (t.rewrite grammar) ++
        sheet.rules.dropWhile (t.succeeds grammar) ∧
    (t.walk grammar sheet).failure = sheet.rules.findSome? (t.failure? grammar) ∧
    (t.walk grammar sheet).questions =
      ((sheet.rules.takeWhile (t.succeeds grammar)) ++
        (sheet.rules.dropWhile (t.succeeds grammar)).take 1).flatMap t.question ∧
    ∀ grammar' : SelectorGrammar,
      (∀ q ∈ (t.walk grammar sheet).questions, grammar' q.1 q.2 = grammar q.1 q.2) →
        t.walk grammar' sheet = t.walk grammar sheet := by
  have hrules : (t.walk grammar sheet).map Stylesheet.rules = t.walkRules grammar sheet.rules :=
    rules_walk sheet
  refine ⟨skeleton_walk sheet, ?_, ?_, ?_, fun grammar' => walk_congr⟩
  · rw [← tree_walkRules, ← hrules]
    rfl
  · rw [← failure_walkRules, ← hrules]
    rfl
  · rw [← questions_walkRules, ← hrules]
    rfl

/-- The third rule is refused, and the last one is not reached. -/
theorem walk_frame_refused :
    let t := registering [.ofClasses [["d"]] ["a"]]
    let refusing : SelectorGrammar := fun text position =>
      if text = ".a, .d" then SelectorList.parse text position
      else .error (.invalidSelector text (.refused "rejected") position)
    let obliging : SelectorGrammar := fun text position =>
      if text = ".c" then SelectorList.parse text position else refusing text position
    ∃ sheet, Stylesheet.parse ".c \x7b\x7d @media x \x7b .a \x7b .a.b \x7b\x7d \x7d \x7d .a \x7b\x7d" = .ok sheet ∧
      (∀ q ∈ (t.walk refusing sheet).questions, obliging q.1 q.2 = refusing q.1 q.2) ∧
      t.walk obliging sheet = t.walk refusing sheet ∧
      (t.walk refusing sheet).tree.rules.map (·.selector.text) = [".c", ".a, .d", ".a.b", ".a"] ∧
      (t.walk refusing sheet).questions.map Prod.fst = [".a, .d", ".a.b, .d.b"] := by
  intro t refusing obliging
  obtain ⟨sheet, hparse, hasked, hrules, hquestions⟩ : ∃ sheet, Stylesheet.parse
      ".c \x7b\x7d @media x \x7b .a \x7b .a.b \x7b\x7d \x7d \x7d .a \x7b\x7d" = .ok sheet ∧
      (∀ q ∈ (t.walk refusing sheet).questions, q.1 ≠ ".c") ∧
      (t.walk refusing sheet).tree.rules.map (·.selector.text) = [".c", ".a, .d", ".a.b", ".a"] ∧
      (t.walk refusing sheet).questions.map Prod.fst = [".a, .d", ".a.b, .d.b"] :=
    exists_of_any_toOption (by decide +kernel)
  have hsame : ∀ q ∈ (t.walk refusing sheet).questions, obliging q.1 q.2 = refusing q.1 q.2 :=
    fun q hq => if_neg (hasked q hq)
  obtain ⟨-, -, -, -, hgrammar⟩ := walk_frame t refusing sheet
  exact ⟨sheet, hparse, hsame, hgrammar obliging hsame, hrules, hquestions⟩

end Table

end ScssExtend
