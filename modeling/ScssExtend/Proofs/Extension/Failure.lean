import ScssExtend.Extension.Resolution
import ScssExtend.Proofs.Extension.Composition
import ScssExtend.Proofs.Extension.Registration
import ScssExtend.Proofs.Selector.RoundTrip
import ScssExtend.Proofs.Stylesheet.Composition

/-!
# When resolution fails

In a stylesheet that was read, no rule is without selectors, and the extenders of the collected table are
composed. So a rule can fail for one reason only: the table changes its list (`Table.Spoils`) into one with a
compound that is not readable. `Stylesheet.resolve_failure_iff` states this of the whole walk, with the error
that is given.
-/

namespace ScssExtend

/-! ## The collected table -/

/-- The full selectors of a nested rule are composed. -/
lemma isComposed_of_mem_nestSelectors {enclosing : Option (List Complex)} {inner : List Complex}
    {x : Complex} (he : ∀ xs ∈ enclosing, ∀ y ∈ xs, y.IsComposed) (hi : ∀ y ∈ inner, y.IsComposed)
    (hx : x ∈ nestSelectors enclosing inner) : x.IsComposed := by
  cases enclosing with
  | none => exact hi x hx
  | some outer =>
    obtain ⟨parent, hparent, hx⟩ := List.mem_flatMap.1 hx
    obtain ⟨y, hy, rfl⟩ := List.mem_map.1 hx
    exact (hi y hy).resolveParent (he outer rfl parent hparent)

/-- An extension that is found has one of the full selectors for its extender. -/
lemma Finding.extender_mem_of_mem_ofTarget {extenders : List Complex} {position : Position} {target : Complex}
    {e : Extension} (h : .extension e ∈ Finding.ofTarget extenders position target) : e.extender ∈ extenders := by
  unfold Finding.ofTarget at h
  split at h
  · obtain ⟨x, hmem, heq⟩ := List.mem_map.1 h
    cases heq
    exact hmem
  · cases List.mem_singleton.1 h

mutual

/-- Rules with composed selectors ask for composed extenders only. -/
theorem Statement.isComposed_of_mem_findings {e : Extension} : ∀ (s : Statement)
    (enclosing : Option (List Complex)), (∀ l ∈ s.ruleSelectors, l.IsComposed) →
    (∀ xs ∈ enclosing, ∀ x ∈ xs, x.IsComposed) → .extension e ∈ s.findings enclosing →
    e.extender.IsComposed
  | .rule selector body _, enclosing, hs, he, h => by
    rw [Statement.ruleSelectors] at hs
    obtain ⟨hselector, hbody⟩ := List.forall_mem_cons.1 hs
    refine Statement.isComposed_of_mem_bodyFindings body _ hbody (fun xs hxs x hx => ?_) h
    cases hxs
    exact isComposed_of_mem_nestSelectors he hselector.selectors hx
  | .media _ body _, enclosing, hs, he, h => Statement.isComposed_of_mem_bodyFindings body _ hs he h
  | .atBlock _ _ body _, enclosing, hs, he, h => Statement.isComposed_of_mem_bodyFindings body _ hs he h
  | .extend targets _ position, enclosing, hs, he, h => by
    cases enclosing with
    | none => cases List.mem_singleton.1 h
    | some extenders =>
      obtain ⟨target, -, h⟩ := List.mem_flatMap.1 h
      exact he extenders rfl _ (Finding.extender_mem_of_mem_ofTarget h)
  | .keyframe .., _, _, _, h => absurd h List.not_mem_nil
  | .atRule .., _, _, _, h => absurd h List.not_mem_nil
  | .declaration .., _, _, _, h => absurd h List.not_mem_nil

/-- Extenders found in a block whose rules are composed, inside of composed ones, are composed. -/
theorem Statement.isComposed_of_mem_bodyFindings {e : Extension} : ∀ (body : List Statement)
    (enclosing : Option (List Complex)), Statement.BodyComposed body →
    (∀ xs ∈ enclosing, ∀ x ∈ xs, x.IsComposed) → .extension e ∈ Statement.bodyFindings enclosing body →
    e.extender.IsComposed
  | [], _, _, _, h => absurd h List.not_mem_nil
  | s :: ss, enclosing, hbody, he, h => by
    rw [Statement.BodyComposed, Statement.bodySelectors] at hbody
    obtain ⟨hs, hss⟩ := List.forall_mem_append.1 hbody
    obtain h | h := List.mem_append.1 h
    · exact Statement.isComposed_of_mem_findings s enclosing hs he h
    · exact Statement.isComposed_of_mem_bodyFindings ss enclosing hss he h

end

namespace Registry

/-- A table that takes an extension has at most that one more. -/
lemma entries_insert {t : Table} {e f : Extension} (h : f ∈ (t.insert e).entries) :
    f ∈ t.entries ∨ f = e := by
  rw [Table.entries_insert_eq] at h
  split_ifs at h
  · exact .inl h
  · exact (List.mem_append.1 h).imp_right List.mem_singleton.1
  · exact .inl h

/-- A registry holds nothing but the extensions that were found. -/
lemma mem_entries_foldl {findings : List Finding} {r : Registry} {e : Extension}
    (h : e ∈ (findings.foldl add r).table.entries) : e ∈ r.table.entries ∨ .extension e ∈ findings := by
  induction findings generalizing r with
  | nil => exact .inl h
  | cons f fs ih =>
    obtain h | h := ih h
    · cases f with
      | warning w => exact .inl h
      | extension f =>
        change e ∈ (r.register f).table.entries at h
        unfold register at h
        split at h
        · exact (entries_insert h).imp_right fun heq => by rw [heq]; exact List.mem_cons_self
        · exact .inl h
    · exact .inr (List.mem_cons_of_mem _ h)

/-- The extenders that are collected from rules with composed selectors are composed. -/
lemma isComposed_of_mem_collect {log : WarningLog} {sheet : Stylesheet} {e : Extension}
    (hsheet : sheet.IsComposed) (h : e ∈ (collect log sheet).table.entries) :
    e.extender.IsComposed := by
  obtain h | h := mem_entries_foldl h
  · cases h
  · exact Statement.isComposed_of_mem_bodyFindings _ none hsheet (fun xs hxs => by cases hxs) h

end Registry

/-! ## Rules that fail -/

/-- The error of a rule that failed. -/
def RuleOutcome.error? : RuleOutcome → Option ExtendError
  | failed error => some error
  | kept | replaced _ => none

namespace Table

variable {t : Table}

/-- What a list becomes. -/
def resolved (t : Table) (list : SelectorList) : SelectorList :=
  ⟨t.resolveSelectors list.selectors, list.position⟩

/-- The table changes the list into one with a compound that is not readable. -/
def Spoils (t : Table) (list : SelectorList) : Prop :=
  (t.resolved list).selectors.map Complex.canonical ≠ list.selectors.map Complex.canonical ∧
    ∃ x ∈ (t.resolved list).selectors, ¬x.IsReadable

instance : DecidablePred t.Spoils := fun _ => inferInstanceAs (Decidable (_ ∧ _))

/-- The error about the text that a list becomes. -/
def Refused (t : Table) (list : SelectorList) (error : ExtendError) : Prop :=
  ∃ source, error = .notReadable (t.resolved list).text list.position source

/-- What becomes of a rule that has selectors, and the steps. -/
lemma resolveRule_eq {grammar : SelectorGrammar} {list : SelectorList} {position : Position}
    (hne : list.selectors ≠ []) : t.resolveRule grammar list position =
      if (t.resolved list).eqv list then (.kept, list.selectors.flatMap t.extendSelectorEvents)
      else if (t.resolved list).isEmpty then
        (.replaced (t.resolved list), list.selectors.flatMap t.extendSelectorEvents ++
          [.replaced position list (t.resolved list)])
      else match grammar (t.resolved list).text list.position with
        | .error source => (.failed (.notReadable (t.resolved list).text list.position source),
            list.selectors.flatMap t.extendSelectorEvents ++
              [.consulted (t.resolved list).text list.position])
        | .ok after => (.replaced after, list.selectors.flatMap t.extendSelectorEvents ++
            [.consulted (t.resolved list).text list.position] ++ [.replaced position list after]) := by
  have hempty : ¬list.isEmpty := by
    rw [SelectorList.isEmpty, List.isEmpty_iff]
    exact hne
  rw [resolveRule, if_neg hempty]
  rfl

/-- What becomes of a rule that has selectors, without the steps. -/
lemma fst_resolveRule {grammar : SelectorGrammar} {list : SelectorList} {position : Position}
    (hne : list.selectors ≠ []) : (t.resolveRule grammar list position).1 =
      if (t.resolved list).eqv list then .kept
      else if (t.resolved list).isEmpty then .replaced (t.resolved list)
      else match grammar (t.resolved list).text list.position with
        | .error source => .failed (.notReadable (t.resolved list).text list.position source)
        | .ok after => .replaced after := by
  rw [resolveRule_eq hne]
  split
  · rfl
  · split
    · rfl
    · cases grammar (t.resolved list).text list.position <;> rfl

variable {list : SelectorList}

/-- A rule whose list is spoiled fails with the error about its text. -/
lemma resolveRule_of_spoils (position : Position) (ht : ∀ e ∈ t.entries, e.extender.IsComposed)
    (hl : list.IsComposed) (h : t.Spoils list) : ∃ error,
      (t.resolveRule SelectorList.parse list position).1.error? = some error ∧
        t.Refused list error := by
  obtain ⟨hchanged, hbad⟩ := h
  have hcomposed : ∀ x ∈ (t.resolved list).selectors, x.IsComposed := fun x hx =>
    isComposed_of_mem_resolveSelectors ht hl hx
  obtain ⟨source, hsource⟩ := SelectorList.parse_text_error hcomposed hbad list.position
  have heqv : ¬(t.resolved list).eqv list := by
    simp [SelectorList.eqv, hchanged]
  have hsome : ¬(t.resolved list).isEmpty := by
    obtain ⟨x, hx, -⟩ := hbad
    rw [SelectorList.isEmpty, List.isEmpty_iff]
    exact List.ne_nil_of_mem hx
  rw [fst_resolveRule hl.nonempty, if_neg heqv, if_neg hsome, hsource]
  exact ⟨_, rfl, source, rfl⟩

/-- A rule whose list is not spoiled does not fail. -/
lemma resolveRule_of_not_spoils (position : Position) (ht : ∀ e ∈ t.entries, e.extender.IsComposed)
    (hl : list.IsComposed) (h : ¬t.Spoils list) :
    (t.resolveRule SelectorList.parse list position).1.error? = none := by
  have hcomposed : ∀ x ∈ (t.resolved list).selectors, x.IsComposed := fun x hx =>
    isComposed_of_mem_resolveSelectors ht hl hx
  rw [fst_resolveRule hl.nonempty]
  split
  · rfl
  · next heqv =>
    split
    · rfl
    · next hsome =>
      have hchanged : (t.resolved list).selectors.map Complex.canonical ≠
          list.selectors.map Complex.canonical := by
        intro heq
        apply heqv
        rw [SelectorList.eqv, heq]
        simp [resolved]
      have hne : (t.resolved list).selectors ≠ [] := by
        rwa [SelectorList.isEmpty, List.isEmpty_iff] at hsome
      have hreadable : ∀ x ∈ (t.resolved list).selectors, x.IsReadable := fun x hx =>
        by_contra fun hbad => h ⟨hchanged, x, hx, hbad⟩
      rw [SelectorList.parse_text hne hcomposed hreadable]
      rfl

/-! ## Walks -/

/-- A walk past rules with these lists goes through when none of them is spoiled, and otherwise stops with the
error about one that is. -/
def Explains (t : Table) (lists : List SelectorList) : Option ExtendError → Prop
  | none => ∀ list ∈ lists, ¬t.Spoils list
  | some error => ∃ list ∈ lists, t.Spoils list ∧ t.Refused list error

/-- Two walks one after the other are explained by both lists, if the first one went through. -/
lemma Explains.append {lists more : List SelectorList} {first second : Option ExtendError}
    (h : t.Explains lists first) (k : t.Explains more second) :
    t.Explains (lists ++ more) (first.or second) := by
  cases first with
  | some error =>
    obtain ⟨list, hmem, hlist⟩ := h
    exact ⟨list, List.mem_append_left _ hmem, hlist⟩
  | none =>
    cases second with
    | some error =>
      obtain ⟨list, hmem, hlist⟩ := k
      exact ⟨list, List.mem_append_right _ hmem, hlist⟩
    | none => exact List.forall_mem_append.2 ⟨h, k⟩

variable {position : Position}

/-- What becomes of one rule is explained by its list. -/
lemma explains_resolveRule (ht : ∀ e ∈ t.entries, e.extender.IsComposed) (hl : list.IsComposed) :
    t.Explains [list] (t.resolveRule SelectorList.parse list position).1.error? := by
  by_cases hspoils : t.Spoils list
  · obtain ⟨error, hfailed, hrefused⟩ := resolveRule_of_spoils position ht hl hspoils
    rw [hfailed]
    exact ⟨list, List.mem_singleton_self list, hspoils, hrefused⟩
  · rw [resolveRule_of_not_spoils position ht hl hspoils]
    exact List.forall_mem_singleton.2 hspoils

/-- The walk past a rule fails where the rule does, or else where its block does. -/
lemma failure_walkStatement_rule {grammar : SelectorGrammar} {body : List Statement} :
    (t.walkStatement grammar (.rule list body position)).failure =
      (t.resolveRule grammar list position).1.error?.or (t.walkBody grammar body).failure := by
  rw [walkStatement]
  obtain ⟨outcome, events⟩ := t.resolveRule grammar list position
  cases outcome <;> rfl

/-- The walk past statements fails where the first of them does, or else where the others do. -/
lemma failure_walkBody_cons {grammar : SelectorGrammar} {s : Statement} {ss : List Statement} :
    (t.walkBody grammar (s :: ss)).failure =
      (t.walkStatement grammar s).failure.or (t.walkBody grammar ss).failure := by
  rw [walkBody]
  dsimp only
  cases (t.walkStatement grammar s).failure <;> rfl

mutual

/-- The walk past a statement is explained by the rules in it. -/
theorem explains_walkStatement (ht : ∀ e ∈ t.entries, e.extender.IsComposed) : ∀ s : Statement,
    (∀ l ∈ s.ruleSelectors, l.IsComposed) →
    t.Explains s.ruleSelectors (t.walkStatement SelectorList.parse s).failure
  | .rule selector body position, hs => by
    rw [Statement.ruleSelectors] at hs ⊢
    obtain ⟨hselector, hbody⟩ := List.forall_mem_cons.1 hs
    -- the rule comes before the rules inside it, whatever its list is replaced by
    rw [failure_walkStatement_rule]
    exact (explains_resolveRule ht hselector).append (explains_walkBody ht body hbody)
  | .media _ body _, hs => explains_walkBody ht body hs
  | .atBlock _ _ body _, hs => explains_walkBody ht body hs
  | .keyframe .., _ => fun _ h => absurd h List.not_mem_nil
  | .atRule .., _ => fun _ h => absurd h List.not_mem_nil
  | .declaration .., _ => fun _ h => absurd h List.not_mem_nil
  | .extend .., _ => fun _ h => absurd h List.not_mem_nil

/-- The walk past a block is explained by the rules in it. -/
theorem explains_walkBody (ht : ∀ e ∈ t.entries, e.extender.IsComposed) : ∀ body : List Statement,
    Statement.BodyComposed body →
    t.Explains (Statement.bodySelectors body) (t.walkBody SelectorList.parse body).failure
  | [], _ => fun _ h => absurd h List.not_mem_nil
  | s :: ss, hbody => by
    rw [Statement.BodyComposed, Statement.bodySelectors] at hbody
    obtain ⟨hs, hss⟩ := List.forall_mem_append.1 hbody
    rw [Statement.bodySelectors, failure_walkBody_cons]
    exact (explains_walkStatement ht s hs).append (explains_walkBody ht ss hss)

end

end Table

namespace Stylesheet

/-- The rules of a stylesheet that was read are all resolved exactly when none of their lists is spoiled, and
otherwise the error is about a list that is. -/
theorem resolve_failure_iff {source : String} {sheet : Stylesheet} (h : Stylesheet.parse source = .ok sheet) :
    (sheet.resolve.walk.failure = none ↔
      ∀ list ∈ sheet.ruleSelectors, ¬sheet.resolve.registry.table.Spoils list) ∧
    ∀ error ∈ sheet.resolve.walk.failure, ∃ list ∈ sheet.ruleSelectors,
      sheet.resolve.registry.table.Spoils list ∧ sheet.resolve.registry.table.Refused list error := by
  -- nothing else is used of the source than that its rules have composed selectors
  have hsheet := isComposed_of_parse h
  have ht : ∀ e ∈ sheet.resolve.registry.table.entries, e.extender.IsComposed := fun e =>
    Registry.isComposed_of_mem_collect hsheet
  have hexplains : sheet.resolve.registry.table.Explains sheet.ruleSelectors sheet.resolve.walk.failure :=
    Table.explains_walkBody ht sheet.statements hsheet
  cases hfailure : sheet.resolve.walk.failure with
  | none =>
    rw [hfailure] at hexplains
    exact ⟨iff_of_true rfl hexplains, fun error herror => absurd herror (by simp)⟩
  | some error =>
    rw [hfailure] at hexplains
    obtain ⟨list, hmem, hspoils, hrefused⟩ := hexplains
    refine ⟨iff_of_false (by simp) fun hall => hall list hmem hspoils, fun error' herror => ?_⟩
    cases herror
    exact ⟨list, hmem, hspoils, hrefused⟩

/-- A sheet with nested rules and extenders in which no list is spoiled. -/
theorem resolve_failure_iff_nested : ∃ sheet,
    Stylesheet.parse ".a > .b.c \x7b\x7d .d \x7b @extend .b; &:hover \x7b @extend .c; \x7d \x7d" = .ok sheet ∧
      sheet.resolve.registry.table.entries ≠ [] ∧
      ∀ list ∈ sheet.ruleSelectors, ¬sheet.resolve.registry.table.Spoils list := by
  obtain ⟨sheet, hparse, hfailure, hentries⟩ : ∃ sheet, Stylesheet.parse
      ".a > .b.c \x7b\x7d .d \x7b @extend .b; &:hover \x7b @extend .c; \x7d \x7d" = .ok sheet ∧
      sheet.resolve.walk.failure = none ∧ sheet.resolve.registry.table.entries ≠ [] :=
    exists_of_any_toOption (by decide +kernel)
  exact ⟨sheet, hparse, hentries, (resolve_failure_iff hparse).1.1 hfailure⟩

/-- The value of `.b` vanishes, `é` would be a suffix of `&`, and `*p` has both `*` and a type. -/
theorem exists_resolve_failure :
    (∃ sheet, Stylesheet.parse ".a[x=\"\u00a0\"]\x7b\x7d .b\x7b@extend .a;\x7d" = .ok sheet ∧
      sheet.resolve.walk.failure ≠ none) ∧
    (∃ sheet, Stylesheet.parse "&.x\x7b\x7d é\x7b@extend .x;\x7d" = .ok sheet ∧
      sheet.resolve.walk.failure ≠ none) ∧
    ∃ sheet, Stylesheet.parse ".x\x7b\x7d *\x7b&p\x7b@extend .x;\x7d\x7d" = .ok sheet ∧
      sheet.resolve.walk.failure ≠ none :=
  ⟨exists_of_any_toOption (by decide +kernel), exists_of_any_toOption (by decide +kernel),
    exists_of_any_toOption (by decide +kernel)⟩

end Stylesheet

end ScssExtend
