import ScssExtend.Proofs.Extension.Collection
import ScssExtend.Proofs.Selector.NestedText

/-!
# Extenders and references to the parent

A selector that is nested mentions `&` just when its parent does (`Complex.mentionsParent_resolveParent`): every `&`
of its own is replaced. So of the selectors that a full selector is nested from, only the outermost one decides
(`Complex.mentionsParent_nested`), and where no outermost rule mentions `&`, no collected extender does
(`Registry.extenders_mention_no_parent`).
-/

namespace ScssExtend

/-! ## Nested selectors -/

/-- Joining takes no `&` over from the second compound. -/
lemma Compound.mentionsParent_joined (c d : Compound) : (c.joined d).mentionsParent = c.mentionsParent := by
  rw [Bool.eq_iff_iff, mentionsParent_iff, mentionsParent_iff, mem_joined]
  simp

namespace Complex

variable {x parent : Complex}

/-- A chain mentions `&` when one of its links does. -/
lemma mentionsParent_eq_any (ls : List Link) :
    mentionsParent ⟨ls⟩ = ls.any fun l => l.compound.mentionsParent :=
  List.any_map

/-- A chain mentions `&` when it is a component of one of its compounds. -/
lemma mentionsParent_iff : x.mentionsParent ↔ ∃ c ∈ x.compounds, .parent ∈ c.components := by
  simp only [mentionsParent, List.any_eq_true, Compound.mentionsParent_iff]

/-- What stands in the place of a link with `&` mentions one just when the parent does. -/
lemma mentionsParent_substituteParent (parent : Complex) (l : Link) :
    mentionsParent ⟨parent.substituteParent l⟩ = parent.mentionsParent := by
  obtain ⟨links⟩ := parent
  obtain rfl | ⟨ls, last, rfl⟩ := List.eq_nil_or_concat' links
  · rfl
  · calc
      _ = (mentionsParent ⟨ls⟩ || last.compound.mentionsParent) := by
        rw [mentionsParent, compounds_substituteParent, List.any_append, List.any_cons, List.any_nil,
          Bool.or_false, Compound.mentionsParent_joined]
        rfl
      _ = mentionsParent ⟨ls ++ [last]⟩ := by
        simp [mentionsParent_eq_any]

/-- A resolved selector mentions `&` only where its parent does. -/
lemma mentionsParent_resolveParent (x parent : Complex) :
    (x.resolveParent parent).mentionsParent = parent.mentionsParent := by
  obtain ⟨links⟩ := x
  cases hx : mentionsParent ⟨links⟩ with
  | false =>
    rw [resolveParent_of_not_mentionsParent hx, mentionsParent_eq_any, List.any_append, ← mentionsParent_eq_any,
      ← mentionsParent_eq_any, hx, Bool.or_false]
  | true =>
    have hlink (l : Link) : (if l.compound.mentionsParent then parent.substituteParent l else [l]).any
        (fun k => k.compound.mentionsParent) = (l.compound.mentionsParent && parent.mentionsParent) := by
      cases hl : l.compound.mentionsParent with
      | false => simp [hl]
      | true => exact (mentionsParent_eq_any _).symm.trans (mentionsParent_substituteParent parent l)
    rw [resolveParent_of_mentionsParent hx, mentionsParent_eq_any, List.any_flatMap]
    rw [mentionsParent_eq_any] at hx
    simp only [hlink]
    cases parent.mentionsParent with
    | false => simp
    | true => simpa using hx

/-- Whatever is nested inside it, the outermost selector decides whether there is a `&`. -/
lemma mentionsParent_nested (x : Complex) (xs : List Complex) :
    (nested (x :: xs)).mentionsParent = x.mentionsParent := by
  rw [nested]
  induction xs generalizing x with
  | nil => rfl
  | cons y ys ih => rw [List.foldl_cons, ih, mentionsParent_resolveParent]

end Complex

/-! ## Outermost rules -/

mutual

/-- The selectors of the rules in a statement that are inside no other rule; keyframe steps are left out. -/
def Statement.outermostSelectors : Statement → List SelectorList
  | .rule selector _ _ => [selector]
  | .media _ body _ | .atBlock _ _ body _ => Statement.bodyOutermostSelectors body
  | .keyframe .. | .atRule .. | .declaration .. | .extend .. => []

/-- The selectors of the rules in a block that are inside no other rule of the block. -/
def Statement.bodyOutermostSelectors : List Statement → List SelectorList
  | [] => []
  | s :: ss => s.outermostSelectors ++ Statement.bodyOutermostSelectors ss

end

/-- The selectors of the rules that no other rule encloses, in document order; keyframe steps are left out. -/
def Stylesheet.outermostSelectors (sheet : Stylesheet) : List SelectorList :=
  Statement.bodyOutermostSelectors sheet.statements

namespace Statement

variable {d : Directive}

mutual

/-- The rules around a statement are the outer ones of those around a directive in it. -/
theorem isPrefix_enclosing : ∀ (s : Statement) (inStep : Bool) (enclosing : List (List Complex)),
    d ∈ s.directives inStep enclosing → enclosing <+: d.enclosing
  | .rule selector body _, inStep, enclosing, hd =>
    (List.prefix_append enclosing _).trans (isPrefix_enclosing_body body inStep _ hd)
  | .media _ body _, inStep, enclosing, hd => isPrefix_enclosing_body body inStep enclosing hd
  | .atBlock _ _ body _, inStep, enclosing, hd => isPrefix_enclosing_body body inStep enclosing hd
  | .keyframe _ body _, _, enclosing, hd => isPrefix_enclosing_body body true enclosing hd
  | .extend .., _, enclosing, hd => by
    obtain rfl := List.mem_singleton.1 hd
    exact List.prefix_refl enclosing
  | .atRule .., _, _, hd => absurd hd List.not_mem_nil
  | .declaration .., _, _, hd => absurd hd List.not_mem_nil

/-- A directive is inside the rules around the block that it is in. -/
theorem isPrefix_enclosing_body : ∀ (body : List Statement) (inStep : Bool) (enclosing : List (List Complex)),
    d ∈ bodyDirectives inStep enclosing body → enclosing <+: d.enclosing
  | [], _, _, hd => absurd hd List.not_mem_nil
  | s :: ss, inStep, enclosing, hd => by
    obtain hd | hd := List.mem_append.1 hd
    · exact isPrefix_enclosing s inStep enclosing hd
    · exact isPrefix_enclosing_body ss inStep enclosing hd

end

mutual

/-- A directive that is followed stands in an outermost rule of the statement. -/
theorem exists_outermost : ∀ s : Statement, d ∈ s.directives false [] → d.IsFollowed →
    ∃ l ∈ s.outermostSelectors, [l.selectors] <+: d.enclosing
  | .rule selector body _, hd, _ =>
    ⟨selector, List.mem_singleton_self selector, isPrefix_enclosing_body body false _ hd⟩
  | .media _ body _, hd, hfollowed => exists_outermost_body body hd hfollowed
  | .atBlock _ _ body _, hd, hfollowed => exists_outermost_body body hd hfollowed
  | .keyframe _ body _, hd, hfollowed => by
    cases (enclosing_of_mem_bodyDirectives body true [] hd hfollowed.2).1
  | .extend .., hd, hfollowed => by
    obtain rfl := List.mem_singleton.1 hd
    exact absurd rfl hfollowed.1
  | .atRule .., hd, _ => absurd hd List.not_mem_nil
  | .declaration .., hd, _ => absurd hd List.not_mem_nil

/-- The first of the rules around a directive is an outermost one. -/
theorem exists_outermost_body : ∀ body : List Statement, d ∈ bodyDirectives false [] body → d.IsFollowed →
    ∃ l ∈ bodyOutermostSelectors body, [l.selectors] <+: d.enclosing
  | [], hd, _ => absurd hd List.not_mem_nil
  | s :: ss, hd, hfollowed => by
    rw [bodyOutermostSelectors]
    obtain hd | hd := List.mem_append.1 hd
    · obtain ⟨l, hl, hprefix⟩ := exists_outermost s hd hfollowed
      exact ⟨l, List.mem_append_left _ hl, hprefix⟩
    · obtain ⟨l, hl, hprefix⟩ := exists_outermost_body ss hd hfollowed
      exact ⟨l, List.mem_append_right _ hl, hprefix⟩

end

end Statement

/-! ## Collected extenders -/

/-- What a directive asks for has one of its full selectors for an extender. -/
lemma Directive.extender_mem_fullSelectors {d : Directive} {e : Extension} (h : .extension e ∈ d.findings) :
    d.IsFollowed ∧ e.extender ∈ Complex.fullSelectors d.enclosing := by
  unfold findings at h
  split at h
  · cases h
  · next hstep =>
    split at h
    · cases List.mem_singleton.1 h
    · next hne =>
      obtain ⟨target, -, h⟩ := List.mem_flatMap.1 h
      exact ⟨⟨hne, Bool.eq_false_iff.2 hstep⟩, Finding.extender_mem_of_mem_ofTarget h⟩

namespace Registry

variable {sheet : Stylesheet} {log : WarningLog} {e : Extension}

/-- An extender is nested from a selector of an outermost rule, and mentions `&` just when this does. -/
lemma exists_outermost_of_mem_collect (he : e ∈ (collect log sheet).table.entries) :
    ∃ l ∈ sheet.outermostSelectors, ∃ x ∈ l.selectors, e.extender.mentionsParent = x.mentionsParent := by
  rw [collect_eq] at he
  obtain he | he := mem_entries_foldl he
  · cases he
  obtain ⟨d, hd, he⟩ := List.mem_flatMap.1 he
  obtain ⟨hfollowed, he⟩ := Directive.extender_mem_fullSelectors he
  obtain ⟨l, hl, more, hmore⟩ := Statement.exists_outermost_body sheet.statements hd hfollowed
  obtain ⟨ys, hys, heq⟩ := List.mem_map.1 he
  rw [← hmore, mem_choices] at hys
  obtain _ | ⟨hx, -⟩ := hys
  exact ⟨l, hl, _, hx, by rw [← heq, Complex.mentionsParent_nested]⟩

/-- Where no selector of an outermost rule has a component `&`, no collected extender has one. -/
theorem extenders_mention_no_parent
    (h : ∀ l ∈ sheet.outermostSelectors, ∀ x ∈ l.selectors, ∀ c ∈ x.compounds, .parent ∉ c.components)
    (log : WarningLog) :
    ∀ e ∈ (collect log sheet).table.entries, ∀ c ∈ e.extender.compounds, .parent ∉ c.components := by
  intro e he c hc hparent
  obtain ⟨l, hl, x, hx, heq⟩ := exists_outermost_of_mem_collect he
  have hmentions : x.mentionsParent := heq ▸ Complex.mentionsParent_iff.2 ⟨c, hc, hparent⟩
  obtain ⟨d, hd, hmem⟩ := Complex.mentionsParent_iff.1 hmentions
  exact h l hl x hx d hd hmem

/-- Several `&` in a chain and in a compound, beside a selector without any; the one in a keyframe step is of no
account. -/
theorem extenders_mention_no_parent_nested : ∃ sheet, Stylesheet.parse (".a, b \x7b @media x \x7b &.c > &, .d \x7b " ++
      "& + &:hover \x7b @extend .t; \x7d \x7d \x7d \x7d " ++
      "@keyframes k \x7b from \x7b & \x7b @extend .u; \x7d \x7d \x7d") = .ok sheet ∧
      (∀ l ∈ sheet.outermostSelectors, ∀ x ∈ l.selectors, ∀ c ∈ x.compounds, .parent ∉ c.components) ∧
      (∀ e ∈ (collect .empty sheet).table.entries, ∀ c ∈ e.extender.compounds, .parent ∉ c.components) ∧
      (collect .empty sheet).table.entries.map (fun e => e.extender.text) =
        [".a.c > .a + .a.c > .a:hover", ".a .d + .a .d:hover", "b.c > b + b.c > b:hover", "b .d + b .d:hover"] := by
  obtain ⟨sheet, hparse, houter, htexts⟩ : ∃ sheet, Stylesheet.parse (".a, b \x7b @media x \x7b &.c > &, .d \x7b " ++
      "& + &:hover \x7b @extend .t; \x7d \x7d \x7d \x7d " ++
      "@keyframes k \x7b from \x7b & \x7b @extend .u; \x7d \x7d \x7d") = .ok sheet ∧
      (∀ l ∈ sheet.outermostSelectors, ∀ x ∈ l.selectors, ∀ c ∈ x.compounds, .parent ∉ c.components) ∧
      (collect .empty sheet).table.entries.map (fun e => e.extender.text) =
        [".a.c > .a + .a.c > .a:hover", ".a .d + .a .d:hover", "b.c > b + b.c > b:hover", "b .d + b .d:hover"] :=
    exists_of_any_toOption (by decide +kernel)
  exact ⟨sheet, hparse, houter, extenders_mention_no_parent houter .empty, htexts⟩

end Registry

end ScssExtend
