import ScssExtend.Proofs.Extension.Failure

/-!
# Collected extensions in closed form

`Stylesheet.directives` lists the `@extend` directives with the selectors of the rules around them. A rule's full
selectors come of choosing one selector of each enclosing rule (`choices`) and reading each as nested inside the
one before (`Complex.nested`). The collected table holds, directive by directive and target by target, one
extension for each choice, and of equivalent ones the first (`Registry.entries_collect`).
-/

namespace ScssExtend

/-! ## Choices -/

/-- The choices of one element of each list, in lexicographic order: the element of the first list changes
last. -/
def choices {α : Type} : List (List α) → List (List α)
  | [] => [[]]
  | xs :: xss => xs.flatMap fun x => (choices xss).map (x :: ·)

section Choices

variable {α : Type} {xss : List (List α)} {xs ys : List α}

/-- From a single list each element is a choice. -/
lemma choices_singleton (xs : List α) : choices [xs] = xs.map ([·]) := by
  simp [choices, List.map_eq_flatMap]

/-- The element of the last list changes first. -/
lemma choices_concat (xss : List (List α)) (xs : List α) :
    choices (xss ++ [xs]) = (choices xss).flatMap fun ys => xs.map fun x => ys ++ [x] := by
  induction xss with
  | nil => simp [choices, List.map_eq_flatMap]
  | cons zs xss ih =>
    simp only [List.cons_append, choices, ih, List.map_flatMap, List.map_map, List.flatMap_assoc,
      List.flatMap_map]
    rfl

/-- A choice takes one element from each list, in their order. -/
lemma mem_choices : ys ∈ choices xss ↔ List.Forall₂ (· ∈ ·) ys xss := by
  induction xss generalizing ys with
  | nil => simp [choices]
  | cons xs xss ih =>
    rw [choices, List.mem_flatMap]
    constructor
    · rintro ⟨x, hx, hys⟩
      obtain ⟨zs, hzs, rfl⟩ := List.mem_map.1 hys
      exact .cons hx (ih.1 hzs)
    · rintro (_ | ⟨hx, hzs⟩)
      exact ⟨_, hx, List.mem_map_of_mem (ih.2 hzs)⟩

/-- No choice from some list is empty. -/
lemma ne_nil_of_mem_choices (hne : xss ≠ []) (h : ys ∈ choices xss) : ys ≠ [] := by
  rintro rfl
  cases mem_choices.1 h
  exact hne rfl

/-- What is chosen comes from one of the lists. -/
lemma exists_mem_of_mem_choices {y : α} (h : ys ∈ choices xss) (hy : y ∈ ys) : ∃ xs ∈ xss, y ∈ xs := by
  replace h := mem_choices.1 h
  induction h with
  | nil => cases hy
  | cons hx _ ih =>
    obtain rfl | hy := List.mem_cons.1 hy
    · exact ⟨_, List.mem_cons_self, hx⟩
    · obtain ⟨xs, hxs, hmem⟩ := ih hy
      exact ⟨xs, List.mem_cons_of_mem _ hxs, hmem⟩

/-- There is a choice if no list is empty. -/
lemma choices_ne_nil (h : ∀ xs ∈ xss, xs ≠ []) : choices xss ≠ [] := by
  induction xss with
  | nil => exact List.cons_ne_nil _ _
  | cons xs xss ih =>
    obtain ⟨hxs, hxss⟩ := List.forall_mem_cons.1 h
    obtain ⟨x, xs, rfl⟩ := List.exists_cons_of_ne_nil hxs
    rw [choices, List.flatMap_cons]
    exact List.append_ne_nil_of_left_ne_nil (mt List.map_eq_nil_iff.1 (ih hxss)) _

end Choices

namespace Complex

/-- The selectors read one after the other as nested inside what comes of those before. -/
def nested : List Complex → Complex
  | [] => ⟨[]⟩
  | x :: xs => xs.foldl (fun parent y => y.resolveParent parent) x

/-- The last selector is resolved against what comes of those before it. -/
lemma nested_concat {xs : List Complex} (hne : xs ≠ []) (y : Complex) :
    nested (xs ++ [y]) = y.resolveParent (nested xs) := by
  obtain ⟨x, xs, rfl⟩ := List.exists_cons_of_ne_nil hne
  simp [nested]

/-- The parent replaces a link by some link. -/
lemma substituteParent_ne_nil {parent : Complex} (hp : parent.links ≠ []) (l : Link) :
    parent.substituteParent l ≠ [] := by
  unfold substituteParent
  dsimp only
  rw [List.getLast?_eq_some_getLast (leadBy_ne_nil hp l.combinator)]
  exact List.concat_ne_nil _ _

/-- A nonempty selector stays so when it is resolved against a nonempty parent. -/
lemma resolveParent_ne_nil {x parent : Complex} (hx : x.links ≠ []) (hp : parent.links ≠ []) :
    (x.resolveParent parent).links ≠ [] := by
  obtain ⟨l, ls, heq⟩ := List.exists_cons_of_ne_nil hx
  unfold resolveParent
  split
  · rw [heq, List.flatMap_cons]
    refine List.append_ne_nil_of_left_ne_nil ?_ _
    split
    · exact substituteParent_ne_nil hp l
    · exact List.cons_ne_nil _ _
  · exact List.append_ne_nil_of_left_ne_nil hp _

/-- Nonempty selectors give a nonempty one when they are nested. -/
lemma nested_ne_nil {xs : List Complex} (hne : xs ≠ []) (h : ∀ x ∈ xs, x.links ≠ []) :
    (nested xs).links ≠ [] := by
  induction xs using List.reverseRecOn with
  | nil => exact absurd rfl hne
  | append_singleton xs y ih =>
    obtain ⟨hxs, hy⟩ := List.forall_mem_append.1 h
    obtain rfl | hxs' := eq_or_ne xs []
    · exact hy y (List.mem_singleton_self y)
    · rw [nested_concat hxs']
      exact resolveParent_ne_nil (hy y (List.mem_singleton_self y)) (ih hxs' hxs)

/-- The full selectors of a rule whose selectors and those of the rules around it are given, the outermost rule
first. -/
def fullSelectors (enclosing : List (List Complex)) : List Complex :=
  (choices enclosing).map nested

/-- The selectors of an outermost rule are its full selectors. -/
lemma fullSelectors_singleton (xs : List Complex) : fullSelectors [xs] = xs := by
  rw [fullSelectors, choices_singleton, List.map_map]
  exact List.map_id xs

/-- The full selectors of a nested rule are its selectors resolved against each full selector around it. -/
lemma fullSelectors_concat {enclosing : List (List Complex)} (hne : enclosing ≠ []) (xs : List Complex) :
    fullSelectors (enclosing ++ [xs]) =
      (fullSelectors enclosing).flatMap fun parent => xs.map (·.resolveParent parent) := by
  rw [fullSelectors, fullSelectors, choices_concat, List.map_flatMap, List.flatMap_map]
  refine List.flatMap_congr fun ys hys => ?_
  simp [nested_concat (ne_nil_of_mem_choices hne hys)]

end Complex

/-! ## Directives -/

/-- An `@extend` directive with the selectors of the rules around it, the outermost rule first, and whether it is
inside a keyframe step. -/
structure Directive where
  enclosing : List (List Complex)
  targets : List Complex
  position : Position
  inStep : Bool
  deriving DecidableEq

mutual

/-- The directives in a statement, in document order; `enclosing` are the selectors of the rules around it. -/
def Statement.directives (inStep : Bool) (enclosing : List (List Complex)) : Statement → List Directive
  | .rule selector body _ => Statement.bodyDirectives inStep (enclosing ++ [selector.selectors]) body
  | .media _ body _ | .atBlock _ _ body _ => Statement.bodyDirectives inStep enclosing body
  | .keyframe _ body _ => Statement.bodyDirectives true enclosing body
  | .extend targets _ position => [⟨enclosing, targets.selectors, position, inStep⟩]
  | .atRule .. | .declaration .. => []

/-- The directives in a block, in document order. -/
def Statement.bodyDirectives (inStep : Bool) (enclosing : List (List Complex)) :
    List Statement → List Directive
  | [] => []
  | s :: ss => s.directives inStep enclosing ++ Statement.bodyDirectives inStep enclosing ss

end

/-- All `@extend` directives of a stylesheet, in document order. -/
def Stylesheet.directives (sheet : Stylesheet) : List Directive :=
  Statement.bodyDirectives false [] sheet.statements

namespace Directive

/-- Only a directive inside a rule, but not inside a keyframe step, is followed. -/
def IsFollowed (d : Directive) : Prop :=
  d.enclosing ≠ [] ∧ d.inStep = false

instance : DecidablePred IsFollowed := fun d => inferInstanceAs (Decidable (d.enclosing ≠ [] ∧ d.inStep = false))

/-- The compound that a target is, when it is nothing else and not empty. -/
def compound? (target : Complex) : Option Compound :=
  match target.links with
  | [⟨.descendant, c⟩] => if c.components = [] then none else some c
  | _ => none

section Targets

variable {extenders : List Complex} {position : Position} {target : Complex} {c : Compound}

/-- A target of one link is a compound, unless it is empty. -/
lemma compound?_of_links (h : target.links = [⟨.descendant, c⟩]) :
    compound? target = if c.components = [] then none else some c := by
  rw [compound?, h]

/-- A compound target gives an extension by each extender. -/
lemma ofTarget_of_links (h : target.links = [⟨.descendant, c⟩]) :
    Finding.ofTarget extenders position target = extenders.map fun x => .extension ⟨x, c, position⟩ := by
  rw [Finding.ofTarget, h]

/-- A target with a combinator is no compound. -/
lemma compound?_of_complex (h : ∀ c, target.links ≠ [⟨.descendant, c⟩]) : compound? target = none := by
  unfold compound?
  split
  · next c heq => exact absurd heq (h c)
  · rfl

/-- A target with a combinator gives a warning instead. -/
lemma ofTarget_of_complex (h : ∀ c, target.links ≠ [⟨.descendant, c⟩]) :
    Finding.ofTarget extenders position target = [.complexTarget position target] := by
  unfold Finding.ofTarget
  split
  · next c heq => exact absurd heq (h c)
  · rfl

end Targets

/-- The extensions that a directive asks for: for each target that is a compound, one for each full selector. -/
def extensions (d : Directive) : List Extension :=
  d.targets.flatMap fun target =>
    match compound? target with
    | none => []
    | some c => (Complex.fullSelectors d.enclosing).map fun x => ⟨x, c, d.position⟩

/-- What a directive comes to. -/
def findings (d : Directive) : List Finding :=
  if d.inStep then []
  else if d.enclosing = [] then [.outsideRules d.position]
  else d.targets.flatMap (Finding.ofTarget (Complex.fullSelectors d.enclosing) d.position)

end Directive

/-- The full selectors of the innermost rule, if there is one. -/
def Complex.fullSelectors? : List (List Complex) → Option (List Complex)
  | [] => none
  | enclosing => some (fullSelectors enclosing)

/-- The collector nests the selectors of a rule as the full selectors are nested. -/
lemma nestSelectors_fullSelectors? (enclosing : List (List Complex)) (xs : List Complex) :
    some (nestSelectors (Complex.fullSelectors? enclosing) xs) =
      Complex.fullSelectors? (enclosing ++ [xs]) := by
  cases enclosing with
  | nil => exact congrArg some (Complex.fullSelectors_singleton xs).symm
  | cons ys yss =>
    exact congrArg some (Complex.fullSelectors_concat (List.cons_ne_nil ys yss) xs).symm

namespace Statement

mutual

/-- Outside keyframe steps the collector finds what the directives give, and inside of them nothing. -/
theorem findings_eq : ∀ (s : Statement) (inStep : Bool) (enclosing : List (List Complex)),
    (s.directives inStep enclosing).flatMap Directive.findings =
      if inStep then [] else s.findings (Complex.fullSelectors? enclosing)
  | .rule selector body _, inStep, enclosing => by
    rw [directives, bodyFindings_eq, findings, nestSelectors_fullSelectors?]
  | .media _ body _, inStep, enclosing => bodyFindings_eq body inStep enclosing
  | .atBlock _ _ body _, inStep, enclosing => bodyFindings_eq body inStep enclosing
  | .keyframe _ body _, inStep, enclosing => by
    rw [directives, bodyFindings_eq body true enclosing]
    cases inStep <;> rfl
  | .extend targets _ position, inStep, enclosing => by
    cases inStep with
    | true => rfl
    | false =>
      rw [directives, List.flatMap_singleton]
      cases enclosing <;> rfl
  | .atRule .., inStep, _ => by cases inStep <;> rfl
  | .declaration .., inStep, _ => by cases inStep <;> rfl

/-- What the directives in a block come to is what each of them comes to. -/
theorem bodyFindings_eq : ∀ (body : List Statement) (inStep : Bool) (enclosing : List (List Complex)),
    (bodyDirectives inStep enclosing body).flatMap Directive.findings =
      if inStep then [] else bodyFindings (Complex.fullSelectors? enclosing) body
  | [], inStep, _ => by cases inStep <;> rfl
  | s :: ss, inStep, enclosing => by
    rw [bodyDirectives, List.flatMap_append, findings_eq, bodyFindings_eq, bodyFindings]
    cases inStep <;> rfl

end

end Statement

/-! ## The collected table -/

namespace Statement

mutual

/-- The rules around a directive are those around the statement and those in it. -/
theorem enclosing_of_mem_directives {d : Directive} : ∀ (s : Statement) (inStep : Bool)
    (enclosing : List (List Complex)), d ∈ s.directives inStep enclosing → d.inStep = false →
    inStep = false ∧ ∀ xs ∈ d.enclosing, xs ∈ enclosing ∨ ∃ l ∈ s.ruleSelectors, xs = l.selectors
  | .rule selector body _, inStep, enclosing, hd, hstep => by
    obtain ⟨hout, h⟩ := enclosing_of_mem_bodyDirectives body inStep _ hd hstep
    refine ⟨hout, fun xs hxs => ?_⟩
    rw [ruleSelectors]
    obtain hxs | ⟨l, hl, rfl⟩ := h xs hxs
    · obtain hxs | hxs := List.mem_append.1 hxs
      · exact .inl hxs
      · exact .inr ⟨selector, List.mem_cons_self, List.mem_singleton.1 hxs⟩
    · exact .inr ⟨l, List.mem_cons_of_mem _ hl, rfl⟩
  | .media _ body _, inStep, enclosing, hd, hstep =>
    enclosing_of_mem_bodyDirectives body inStep enclosing hd hstep
  | .atBlock _ _ body _, inStep, enclosing, hd, hstep =>
    enclosing_of_mem_bodyDirectives body inStep enclosing hd hstep
  | .keyframe _ body _, _, enclosing, hd, hstep => by
    -- all that is inside a keyframe step stays inside it
    cases (enclosing_of_mem_bodyDirectives body true enclosing hd hstep).1
  | .extend .., _, _, hd, hstep => by
    obtain rfl := List.mem_singleton.1 hd
    exact ⟨hstep, fun xs hxs => .inl hxs⟩
  | .atRule .., _, _, hd, _ => absurd hd List.not_mem_nil
  | .declaration .., _, _, hd, _ => absurd hd List.not_mem_nil

/-- The rules around a directive in a block are those around the block and those in it. -/
theorem enclosing_of_mem_bodyDirectives {d : Directive} : ∀ (body : List Statement) (inStep : Bool)
    (enclosing : List (List Complex)), d ∈ bodyDirectives inStep enclosing body → d.inStep = false →
    inStep = false ∧ ∀ xs ∈ d.enclosing, xs ∈ enclosing ∨ ∃ l ∈ bodySelectors body, xs = l.selectors
  | [], _, _, hd, _ => absurd hd List.not_mem_nil
  | s :: ss, inStep, enclosing, hd, hstep => by
    rw [bodySelectors]
    obtain hd | hd := List.mem_append.1 hd
    · obtain ⟨hout, h⟩ := enclosing_of_mem_directives s inStep enclosing hd hstep
      refine ⟨hout, fun xs hxs => (h xs hxs).imp_right ?_⟩
      exact fun ⟨l, hl, heq⟩ => ⟨l, List.mem_append_left _ hl, heq⟩
    · obtain ⟨hout, h⟩ := enclosing_of_mem_bodyDirectives ss inStep enclosing hd hstep
      refine ⟨hout, fun xs hxs => (h xs hxs).imp_right ?_⟩
      exact fun ⟨l, hl, heq⟩ => ⟨l, List.mem_append_right _ hl, heq⟩

end

end Statement

/-- A directive outside keyframe steps is inside rules of the stylesheet. -/
lemma Stylesheet.mem_ruleSelectors_of_mem_directives {sheet : Stylesheet} {d : Directive}
    (hd : d ∈ sheet.directives) (hstep : d.inStep = false) {xs : List Complex} (hxs : xs ∈ d.enclosing) :
    ∃ l ∈ sheet.ruleSelectors, xs = l.selectors := by
  obtain ⟨-, h⟩ := Statement.enclosing_of_mem_bodyDirectives sheet.statements false [] hd hstep
  exact (h xs hxs).resolve_left List.not_mem_nil

/-- The extension that a finding is, unless it is a warning. -/
def Finding.extension? : Finding → Option Extension
  | extension e => some e
  | warning _ => none

namespace Directive

/-- Nested rules have no empty full selectors if their own selectors are not empty. -/
lemma fullSelectors_ne_nil {enclosing : List (List Complex)} (hne : enclosing ≠ [])
    (h : ∀ xs ∈ enclosing, ∀ x ∈ xs, x.links ≠ []) :
    ∀ x ∈ Complex.fullSelectors enclosing, x.links ≠ [] := by
  intro x hx
  obtain ⟨ys, hys, rfl⟩ := List.mem_map.1 hx
  refine Complex.nested_ne_nil (ne_nil_of_mem_choices hne hys) fun y hy => ?_
  obtain ⟨xs, hxs, hmem⟩ := exists_mem_of_mem_choices hys hy
  exact h xs hxs y hmem

/-- Among the findings of a target are the extensions of the compound that it is, and no other proper ones. -/
lemma proper_ofTarget {extenders : List Complex} (h : ∀ x ∈ extenders, x.links ≠ []) (position : Position)
    (target : Complex) :
    ((Finding.ofTarget extenders position target).filterMap Finding.extension?).filter
        (fun e => e.IsProper) =
      match compound? target with
      | none => []
      | some c => extenders.map fun x => ⟨x, c, position⟩ := by
  by_cases h₁ : ∃ c, target.links = [⟨.descendant, c⟩]
  · obtain ⟨c, hc⟩ := h₁
    have hall : (extenders.map fun x => Finding.extension ⟨x, c, position⟩).filterMap Finding.extension? =
        extenders.map fun x => ⟨x, c, position⟩ :=
      List.filterMap_map.trans (congrFun List.filterMap_eq_map extenders)
    rw [ofTarget_of_links hc, compound?_of_links hc, hall]
    by_cases hempty : c.components = []
    · rw [if_pos hempty]
      refine List.filter_eq_nil_iff.2 fun e he => ?_
      obtain ⟨x, -, rfl⟩ := List.mem_map.1 he
      simp [Extension.IsProper, hempty]
    · rw [if_neg hempty]
      refine List.filter_eq_self.2 fun e he => ?_
      obtain ⟨x, hx, rfl⟩ := List.mem_map.1 he
      simp [Extension.IsProper, hempty, h x hx]
  · have hno : ∀ c, target.links ≠ [⟨.descendant, c⟩] := fun c hc => h₁ ⟨c, hc⟩
    rw [ofTarget_of_complex hno, compound?_of_complex hno]
    rfl

/-- A directive inside chains that have links leads to the extensions that it asks for if it is followed, and to
no proper ones if it is not. -/
lemma proper_findings {d : Directive}
    (h : d.inStep = false → ∀ xs ∈ d.enclosing, ∀ x ∈ xs, x.links ≠ []) :
    (d.findings.filterMap Finding.extension?).filter (fun e => e.IsProper) =
      if d.IsFollowed then d.extensions else [] := by
  by_cases hfollowed : d.IsFollowed
  · rw [if_pos hfollowed]
    obtain ⟨hne, hstep⟩ := hfollowed
    have hlinks := fullSelectors_ne_nil hne (h hstep)
    rw [findings, hstep, if_neg Bool.false_ne_true, if_neg hne, List.filterMap_flatMap,
      List.filter_flatMap, extensions]
    exact List.flatMap_congr fun target _ => proper_ofTarget hlinks d.position target
  · rw [if_neg hfollowed, findings]
    split
    · rfl
    · next hstep =>
      have hne : d.enclosing = [] :=
        by_contra fun hne => hfollowed ⟨hne, Bool.eq_false_iff.2 hstep⟩
      rw [if_pos hne]
      rfl

end Directive

/-- What leads to nothing may as well be left out. -/
lemma flatMap_filter_eq_self {α β : Type} {p : α → Bool} {f : α → List β} {as : List α}
    (h : ∀ a ∈ as, p a = false → f a = []) : (as.filter p).flatMap f = as.flatMap f := by
  induction as with
  | nil => rfl
  | cons a as ih =>
    obtain ⟨ha, has⟩ := List.forall_mem_cons.1 h
    cases hp : p a with
    | true => rw [List.filter_cons_of_pos hp, List.flatMap_cons, List.flatMap_cons, ih has]
    | false =>
      rw [List.filter_cons_of_neg (by rw [hp]; exact Bool.false_ne_true), List.flatMap_cons, ha hp, ih has,
        List.nil_append]

namespace Registry

/-- The table of a registry takes the extensions among the findings, and the warnings leave it alone. -/
lemma table_foldl_add (findings : List Finding) (r : Registry) :
    (findings.foldl add r).table = (findings.filterMap Finding.extension?).foldl Table.insert r.table := by
  induction findings generalizing r with
  | nil => rfl
  | cons f fs ih =>
    rw [List.foldl_cons, ih]
    cases f with
    | warning w => rfl
    | extension e =>
      have htable : (r.add (.extension e)).table = r.table.insert e := by
        change (r.register e).table = _
        unfold register
        split
        · next hproper => rw [Table.insert, dif_pos hproper]
        · next hproper => rw [Table.insert, dif_neg hproper]
      rw [htable]
      rfl

/-- Collecting registers, one after the other, what the directives come to. -/
lemma collect_eq (log : WarningLog) (sheet : Stylesheet) :
    collect log sheet = (sheet.directives.flatMap Directive.findings).foldl add ⟨.empty, log⟩ := by
  rw [collect, Stylesheet.directives, Statement.bodyFindings_eq]
  rfl

/-- When the chains in the rules have links, the collected extensions are those that the followed directives ask
for, in document order, and of equivalent ones the first. -/
theorem entries_collect {sheet : Stylesheet}
    (h : ∀ l ∈ sheet.ruleSelectors, ∀ x ∈ l.selectors, x.links ≠ []) (log : WarningLog) :
    (collect log sheet).table.entries =
      ((sheet.directives.filter (·.IsFollowed)).flatMap Directive.extensions).eraseDupsBy Extension.eqv := by
  have hfollowed : (sheet.directives.filter (·.IsFollowed)).flatMap Directive.extensions =
      sheet.directives.flatMap fun d => if d.IsFollowed then d.extensions else [] := by
    rw [← flatMap_filter_eq_self (p := fun d => d.IsFollowed) fun d _ hd => if_neg (of_decide_eq_false hd)]
    exact List.flatMap_congr fun d hd => (if_pos (of_decide_eq_true (List.mem_filter.1 hd).2)).symm
  have hproper : ((sheet.directives.flatMap Directive.findings).filterMap Finding.extension?).filter
      (fun e => e.IsProper) = (sheet.directives.filter (·.IsFollowed)).flatMap Directive.extensions := by
    rw [List.filterMap_flatMap, List.filter_flatMap, hfollowed]
    refine List.flatMap_congr fun d hd => Directive.proper_findings fun hstep xs hxs => ?_
    obtain ⟨l, hl, rfl⟩ := Stylesheet.mem_ruleSelectors_of_mem_directives hd hstep hxs
    exact h l hl
  rw [collect_eq, table_foldl_add, ← hproper]
  exact Table.entries_registering _

/-- Four choices for the inner rule; two of the targets, one directive and the keyframe step add nothing. -/
theorem entries_collect_nested : ∃ sheet, Stylesheet.parse (".a, .b \x7b > .c, &:hover \x7b @media x \x7b " ++
      "@extend .t.u, .p .q, .u.t; \x7d \x7d @extend .v; @extend .v; \x7d " ++
      "@keyframes k \x7b from \x7b @extend .z; \x7d \x7d") = .ok sheet ∧
      (∀ l ∈ sheet.ruleSelectors, ∀ x ∈ l.selectors, x.links ≠ []) ∧
      ((sheet.directives.filter (·.IsFollowed)).flatMap Directive.extensions).length = 12 ∧
      (collect .empty sheet).table.entries =
        ((sheet.directives.filter (·.IsFollowed)).flatMap Directive.extensions).eraseDupsBy Extension.eqv ∧
      (collect .empty sheet).table.entries.map (fun e => (e.extender.text, e.target.text)) =
        [(".a > .c", ".t.u"), (".a:hover", ".t.u"), (".b > .c", ".t.u"), (".b:hover", ".t.u"), (".a", ".v"),
          (".b", ".v")] := by
  obtain ⟨sheet, hparse, hlinks, hlength, htexts⟩ : ∃ sheet, Stylesheet.parse
      (".a, .b \x7b > .c, &:hover \x7b @media x \x7b @extend .t.u, .p .q, .u.t; \x7d \x7d " ++
      "@extend .v; @extend .v; \x7d @keyframes k \x7b from \x7b @extend .z; \x7d \x7d") = .ok sheet ∧
      (∀ l ∈ sheet.ruleSelectors, ∀ x ∈ l.selectors, x.links ≠ []) ∧
      ((sheet.directives.filter (·.IsFollowed)).flatMap Directive.extensions).length = 12 ∧
      (collect .empty sheet).table.entries.map (fun e => (e.extender.text, e.target.text)) =
        [(".a > .c", ".t.u"), (".a:hover", ".t.u"), (".b > .c", ".t.u"), (".b:hover", ".t.u"), (".a", ".v"),
          (".b", ".v")] :=
    exists_of_any_toOption (by decide +kernel)
  exact ⟨sheet, hparse, hlinks, hlength, entries_collect hlinks .empty, htexts⟩

end Registry

end ScssExtend
