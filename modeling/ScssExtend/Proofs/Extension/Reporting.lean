import ScssExtend.Proofs.Extension.Collection

/-!
# Directives that are not followed are reported

Whatever a directive comes to, a registry takes note of it (`Registry.Notes`): an extension is known afterwards,
and in all other cases a warning is given. So every target of a directive outside keyframe steps is registered
for all full selectors of its rule, or a warning that holds of this very target names the place of the directive
(`Registry.isRegistered_or_isReported`). Directives inside keyframe steps are passed over in silence.
-/

namespace ScssExtend

namespace WarningLog

variable {log : WarningLog} {v w : Warning}

/-- A warning has been given once it is given. -/
lemma contains_warn_self (log : WarningLog) (w : Warning) : (log.warn w).contains w := by
  unfold warn
  split
  · assumption
  · simp [contains]

/-- What has been reported stays reported. -/
lemma contains_warn (h : log.contains v) : (log.warn w).contains v := by
  unfold warn
  split
  · exact h
  · simp only [contains, List.any_append, Bool.or_eq_true] at h ⊢
    exact .inl h

end WarningLog

namespace Table

variable {t : Table} {e f : Extension}

/-- A proper extension is known once it is registered. -/
lemma knows_insert_self (h : e.IsProper) : (t.insert e).knows e := by
  unfold knows
  rw [entries_insert_eq, if_pos h]
  split
  · assumption
  · simp [Extension.eqv_eq_key_beq]

/-- A known extension stays known. -/
lemma knows_insert (h : t.knows e) : (t.insert f).knows e := by
  unfold knows at h ⊢
  rw [entries_insert_eq]
  split
  · split
    · exact h
    · rw [List.any_append, h, Bool.true_or]
  · exact h

end Table

namespace Registry

/-- The registry has taken note of a finding: it knows the extension, or has warned that a side of it is empty, which
is so; or it has given the warning. -/
def Notes (r : Registry) : Finding → Prop
  | .extension e => r.table.knows e ∨ ¬e.IsProper ∧ r.log.contains e.emptyWarning
  | .warning w => r.log.contains w

/-- A finding is noted when it is added. -/
lemma notes_add_self (r : Registry) (f : Finding) : (r.add f).Notes f := by
  cases f with
  | warning w => exact r.log.contains_warn_self w
  | extension e =>
    change (r.register e).Notes (.extension e)
    unfold register
    split
    · next h => exact .inl (Table.knows_insert_self h)
    · next h => exact .inr ⟨h, r.log.contains_warn_self _⟩

/-- What has been noted stays noted. -/
lemma Notes.add {r : Registry} {f : Finding} (h : r.Notes f) (g : Finding) : (r.add g).Notes f := by
  have hlog {w : Warning} (hw : r.log.contains w) : (r.add g).log.contains w := by
    cases g with
    | warning v => exact WarningLog.contains_warn hw
    | extension e =>
      change (r.register e).log.contains w
      unfold register
      split
      · exact hw
      · exact WarningLog.contains_warn hw
  have htable {e : Extension} (he : r.table.knows e) : (r.add g).table.knows e := by
    cases g with
    | warning v => exact he
    | extension e' =>
      change (r.register e').table.knows e
      unfold register
      split
      · exact Table.knows_insert he
      · exact he
  cases f with
  | warning w => exact hlog h
  | extension e => exact h.imp htable (And.imp_right hlog)

/-- Nothing that is found is lost. -/
lemma notes_foldl_add {findings : List Finding} {f : Finding} (r : Registry) (h : f ∈ findings) :
    (findings.foldl add r).Notes f := by
  have hkept {r : Registry} (hr : r.Notes f) (gs : List Finding) : (gs.foldl add r).Notes f := by
    induction gs generalizing r with
    | nil => exact hr
    | cons g gs ih => exact ih (hr.add g)
  induction findings generalizing r with
  | nil => cases h
  | cons g gs ih =>
    obtain rfl | h := List.mem_cons.1 h
    · exact hkept (r.notes_add_self f) gs
    · exact ih (r.add g) h

end Registry

namespace Directive

/-- One target of the directive is registered: it is a compound, and for each full selector of the rule around the
directive, of which there are some, the table has an extension with it as extender. -/
def IsRegistered (d : Directive) (t : Table) (target : Complex) : Prop :=
  d.enclosing ≠ [] ∧ Complex.fullSelectors d.enclosing ≠ [] ∧
    ∃ c, target.links = [⟨.descendant, c⟩] ∧
      ∀ x ∈ Complex.fullSelectors d.enclosing, t.knows ⟨x, c, d.position⟩

/-- One target of the directive is reported: a warning has been given that holds of this target and begins with the
place of the directive. -/
inductive IsReported (d : Directive) (log : WarningLog) (target : Complex) : Prop where
  /-- The directive is outside of all rules, so none of its targets is followed. -/
  | outside (houtside : d.enclosing = [])
      (hwarned : log.contains ⟨"extend", d.position.text ++ ": @extend may only be used within style rules"⟩)
  /-- This target is more than one compound, and the warning has its text. -/
  | complex (hinside : d.enclosing ≠ []) (hcomplex : ∀ c, target.links ≠ [⟨.descendant, c⟩])
      (hwarned : log.contains ⟨"extend", d.position.text ++ ": can't extend complex selector '" ++ target.text ++
        "', only compound selectors"⟩)
  /-- This target, or a full selector that was to extend it, is empty. -/
  | empty {c : Compound} {x : Complex} (hinside : d.enclosing ≠ []) (htarget : target.links = [⟨.descendant, c⟩])
      (hextender : x ∈ Complex.fullSelectors d.enclosing) (hempty : c.components = [] ∨ x.links = [])
      (hwarned : log.contains ⟨"extend", d.position.text ++ ": ignoring @extend with an empty selector"⟩)

variable {d : Directive}

/-- What is not known although it was found has a side that is empty, and this has been reported. -/
lemma isReported_of_notes_extension {r : Registry} {target : Complex} {c : Compound} {x : Complex}
    (hinside : d.enclosing ≠ []) (htarget : target.links = [⟨.descendant, c⟩])
    (hx : x ∈ Complex.fullSelectors d.enclosing) (h : r.Notes (.extension ⟨x, c, d.position⟩))
    (hunknown : ¬r.table.knows ⟨x, c, d.position⟩) : d.IsReported r.log target := by
  obtain ⟨himproper, hwarned⟩ := h.resolve_left hunknown
  refine .empty hinside htarget hx ?_ hwarned
  rw [Extension.IsProper, not_and_or, not_not, not_not] at himproper
  exact himproper

/-- With an empty table nothing is registered. -/
lemma not_isRegistered {t : Table} {target : Complex} (h : t.entries = []) : ¬d.IsRegistered t target := by
  rintro ⟨-, hne, c, -, hall⟩
  obtain ⟨x, hx⟩ := List.exists_mem_of_ne_nil _ hne
  have hknown := hall x hx
  rw [Table.knows, h] at hknown
  cases hknown

/-- A target that is not one compound is not registered. -/
lemma not_isRegistered_of_complex {t : Table} {target : Complex} (h : ∀ c, target.links ≠ [⟨.descendant, c⟩]) :
    ¬d.IsRegistered t target :=
  fun ⟨_, _, c, hc, _⟩ => h c hc

/-- Where no warning is given, nothing is reported. -/
lemma not_isReported {log : WarningLog} {target : Complex} (h : log.given = []) : ¬d.IsReported log target := by
  have hnone (w : Warning) : ¬log.contains w := by
    rw [WarningLog.contains, h]
    exact Bool.false_ne_true
  rintro (⟨-, hwarned⟩ | ⟨-, -, hwarned⟩ | ⟨-, -, -, -, hwarned⟩) <;> exact hnone _ hwarned

/-- A compound inside of rules that have links is not reported. -/
lemma not_isReported_of_links {log : WarningLog} {target : Complex} {c : Compound} (hinside : d.enclosing ≠ [])
    (hlinks : ∀ xs ∈ d.enclosing, ∀ x ∈ xs, x.links ≠ []) (htarget : target.links = [⟨.descendant, c⟩])
    (hc : c.components ≠ []) : ¬d.IsReported log target := by
  rintro (⟨houtside, -⟩ | ⟨-, hcomplex, -⟩ | ⟨-, htarget', hx, hempty, -⟩)
  · exact hinside houtside
  · exact hcomplex c htarget
  · cases htarget.symm.trans htarget'
    exact hempty.elim hc (fullSelectors_ne_nil hinside hlinks _ hx)

/-- A registry that has taken note of all that a directive comes to has registered or reported its targets. -/
lemma isRegistered_or_isReported_of_notes {r : Registry} {target : Complex} (hstep : d.inStep = false)
    (hne : ∀ xs ∈ d.enclosing, xs ≠ []) (htarget : target ∈ d.targets)
    (h : ∀ f ∈ d.findings, r.Notes f) : d.IsRegistered r.table target ∨ d.IsReported r.log target := by
  rw [findings, hstep, if_neg Bool.false_ne_true] at h
  split at h
  · next houtside => exact .inr (.outside houtside (h _ (List.mem_singleton_self _)))
  · next henclosing =>
    replace h : ∀ f ∈ Finding.ofTarget (Complex.fullSelectors d.enclosing) d.position target, r.Notes f :=
      fun f hf => h f (List.mem_flatMap.2 ⟨target, htarget, hf⟩)
    by_cases hcompound : ∃ c, target.links = [⟨.descendant, c⟩]
    · obtain ⟨c, hc⟩ := hcompound
      rw [ofTarget_of_links hc] at h
      by_cases hknown : ∀ x ∈ Complex.fullSelectors d.enclosing, r.table.knows ⟨x, c, d.position⟩
      · refine .inl ⟨henclosing, ?_, c, hc, hknown⟩
        exact mt List.map_eq_nil_iff.1 (choices_ne_nil hne)
      · -- an extender that is not known has been reported as empty
        obtain ⟨x, hx⟩ := not_forall.1 hknown
        obtain ⟨hmem, hx⟩ := Classical.not_imp.1 hx
        have hnotes := h _ (List.mem_map_of_mem hmem)
        exact .inr (isReported_of_notes_extension henclosing hc hmem hnotes hx)
    · have hcomplex : ∀ c, target.links ≠ [⟨.descendant, c⟩] := fun c hc => hcompound ⟨c, hc⟩
      rw [ofTarget_of_complex hcomplex] at h
      exact .inr (.complex henclosing hcomplex (h _ (List.mem_singleton_self _)))

end Directive

namespace Registry

/-- What is inside keyframe steps makes no difference. -/
lemma collect_congr {sheet sheet' : Stylesheet} (log : WarningLog)
    (h : sheet'.directives.filter (!·.inStep) = sheet.directives.filter (!·.inStep)) :
    collect log sheet' = collect log sheet := by
  have houtside (ds : List Directive) :
      (ds.filter (!·.inStep)).flatMap Directive.findings = ds.flatMap Directive.findings :=
    flatMap_filter_eq_self fun d _ hstep => if_pos (by simpa using hstep)
  rw [collect_eq, collect_eq, ← houtside, h, houtside]

/-- In a stylesheet that was read, each target of a directive outside keyframe steps is registered for every full
selector of the rule around it, or a warning about this target names the place of the directive. Directives inside
keyframe steps are neither registered nor reported: nothing depends on them. -/
theorem isRegistered_or_isReported {source : String} {sheet : Stylesheet}
    (h : Stylesheet.parse source = .ok sheet) :
    (∀ d ∈ sheet.directives, d.inStep = false → ∀ target ∈ d.targets,
      d.IsRegistered (collect .empty sheet).table target ∨ d.IsReported (collect .empty sheet).log target) ∧
    ∀ sheet' : Stylesheet, sheet'.directives.filter (!·.inStep) = sheet.directives.filter (!·.inStep) →
      collect .empty sheet' = collect .empty sheet := by
  refine ⟨fun d hd hstep target htarget => ?_, fun sheet' => collect_congr .empty⟩
  have hne : ∀ xs ∈ d.enclosing, xs ≠ [] := by
    intro xs hxs
    obtain ⟨l, hl, rfl⟩ := Stylesheet.mem_ruleSelectors_of_mem_directives hd hstep hxs
    exact (Stylesheet.isComposed_of_parse h l hl).nonempty
  refine Directive.isRegistered_or_isReported_of_notes hstep hne htarget fun f hf => ?_
  rw [collect_eq]
  exact notes_foldl_add _ (List.mem_flatMap.2 ⟨d, hd, hf⟩)

/-- Of three targets the one in the middle is registered and not reported; each of the other two is not registered
but reported by itself. The directive in the keyframe step adds nothing. -/
theorem isRegistered_or_isReported_mixed : ∃ sheet sheet',
    Stylesheet.parse ".a \x7b &.b, .c & \x7b @extend .u .v, .t, > .w; \x7d \x7d" = .ok sheet ∧
      (∃ d ∈ sheet.directives, d.inStep = false ∧ ∃ uv t w, d.targets = [uv, t, w] ∧
        d.IsRegistered (collect .empty sheet).table t ∧ ¬d.IsReported (collect .empty sheet).log t ∧
        (uv.text = ".u .v" ∧ ¬d.IsRegistered (collect .empty sheet).table uv ∧
          d.IsReported (collect .empty sheet).log uv) ∧
        (w.text = "> .w" ∧ ¬d.IsRegistered (collect .empty sheet).table w ∧
          d.IsReported (collect .empty sheet).log w)) ∧
      (collect .empty sheet).table.entries.map (fun e => (e.extender.text, e.target.text)) =
        [(".a.b", ".t"), (".c .a", ".t")] ∧
      (collect .empty sheet).log.given.map Warning.text =
        ["[extend] 1:18: can't extend complex selector '.u .v', only compound selectors",
          "[extend] 1:18: can't extend complex selector '> .w', only compound selectors"] ∧
      sheet'.directives.length = 2 ∧
      sheet'.directives.filter (!·.inStep) = sheet.directives.filter (!·.inStep) ∧
      collect .empty sheet' = collect .empty sheet := by
  obtain ⟨sheet, hparse, ⟨d, hd, hstep, hinside, hlinks, htargets⟩, htexts, hwarned, hother⟩ :
      ∃ sheet, Stylesheet.parse ".a \x7b &.b, .c & \x7b @extend .u .v, .t, > .w; \x7d \x7d" = .ok sheet ∧
      (∃ d ∈ sheet.directives, d.inStep = false ∧ d.enclosing ≠ [] ∧
        (∀ xs ∈ d.enclosing, ∀ x ∈ xs, x.links ≠ []) ∧
        d.targets = [⟨[⟨.descendant, ⟨[.className "u"]⟩⟩, ⟨.descendant, ⟨[.className "v"]⟩⟩]⟩,
          ⟨[⟨.descendant, ⟨[.className "t"]⟩⟩]⟩, ⟨[⟨.child, ⟨[.className "w"]⟩⟩]⟩]) ∧
      (collect .empty sheet).table.entries.map (fun e => (e.extender.text, e.target.text)) =
        [(".a.b", ".t"), (".c .a", ".t")] ∧
      (collect .empty sheet).log.given.map Warning.text =
        ["[extend] 1:18: can't extend complex selector '.u .v', only compound selectors",
          "[extend] 1:18: can't extend complex selector '> .w', only compound selectors"] ∧
      (Stylesheet.parse (".a \x7b &.b, .c & \x7b @extend .u .v, .t, > .w; \x7d \x7d " ++
        "@keyframes k \x7b from \x7b @extend .x; \x7d \x7d")).toOption.any fun sheet' =>
          decide (sheet'.directives.length = 2 ∧
            sheet'.directives.filter (!·.inStep) = sheet.directives.filter (!·.inStep)) :=
    exists_of_any_toOption (by decide +kernel)
  obtain ⟨sheet', -, hlength, hsame⟩ := exists_of_any_toOption hother
  obtain ⟨hall, hsteps⟩ := isRegistered_or_isReported hparse
  replace hall := hall d hd hstep
  rw [htargets] at hall
  obtain ⟨huv, hall⟩ := List.forall_mem_cons.1 hall
  obtain ⟨ht, hall⟩ := List.forall_mem_cons.1 hall
  have hw := List.forall_mem_singleton.1 hall
  have ht' : ¬d.IsReported (collect .empty sheet).log ⟨[⟨.descendant, ⟨[.className "t"]⟩⟩]⟩ :=
    Directive.not_isReported_of_links hinside hlinks rfl (List.cons_ne_nil _ _)
  have huv' : ¬d.IsRegistered (collect .empty sheet).table
      ⟨[⟨.descendant, ⟨[.className "u"]⟩⟩, ⟨.descendant, ⟨[.className "v"]⟩⟩]⟩ :=
    Directive.not_isRegistered_of_complex (by simp)
  have hw' : ¬d.IsRegistered (collect .empty sheet).table ⟨[⟨.child, ⟨[.className "w"]⟩⟩]⟩ :=
    Directive.not_isRegistered_of_complex (by simp)
  refine ⟨sheet, sheet', hparse, ⟨d, hd, hstep, _, _, _, htargets, ht.resolve_right ht', ht', ⟨?_, huv', ?_⟩, ?_, hw',
    ?_⟩, htexts, hwarned, hlength, hsame, hsteps sheet' hsame⟩
  · rfl
  · exact huv.resolve_left huv'
  · rfl
  · exact hw.resolve_left hw'

/-- In keyframe steps directives are neither registered nor reported, be the step outside of all rules or inside
one: no extension is collected and no warning given at all. -/
theorem exists_not_isRegistered_of_inStep :
    (∃ sheet, Stylesheet.parse "@keyframes k\x7bfrom\x7b@extend .t;\x7d\x7d" = .ok sheet ∧
      (collect .empty sheet).table.entries = [] ∧ (collect .empty sheet).log.given = [] ∧
      ∃ d ∈ sheet.directives, ∃ target ∈ d.targets, d.enclosing = [] ∧
        ¬d.IsRegistered (collect .empty sheet).table target ∧ ¬d.IsReported (collect .empty sheet).log target) ∧
    ∃ sheet, Stylesheet.parse ".a\x7b@keyframes k\x7bfrom\x7b@extend .t;\x7d\x7d\x7d" = .ok sheet ∧
      (collect .empty sheet).table.entries = [] ∧ (collect .empty sheet).log.given = [] ∧
      ∃ d ∈ sheet.directives, ∃ target ∈ d.targets, d.enclosing ≠ [] ∧
        ¬d.IsRegistered (collect .empty sheet).table target ∧ ¬d.IsReported (collect .empty sheet).log target := by
  have silent {sheet : Stylesheet} (hentries : (collect .empty sheet).table.entries = [])
      (hgiven : (collect .empty sheet).log.given = []) (d : Directive) (target : Complex) :
      ¬d.IsRegistered (collect .empty sheet).table target ∧ ¬d.IsReported (collect .empty sheet).log target :=
    ⟨Directive.not_isRegistered hentries, Directive.not_isReported hgiven⟩
  constructor
  · obtain ⟨sheet, hparse, hentries, hgiven, d, hd, target, htarget, houtside⟩ : ∃ sheet,
        Stylesheet.parse "@keyframes k\x7bfrom\x7b@extend .t;\x7d\x7d" = .ok sheet ∧
        (collect .empty sheet).table.entries = [] ∧ (collect .empty sheet).log.given = [] ∧
        ∃ d ∈ sheet.directives, ∃ target ∈ d.targets, d.enclosing = [] :=
      exists_of_any_toOption (by decide +kernel)
    exact ⟨sheet, hparse, hentries, hgiven, d, hd, target, htarget, houtside, silent hentries hgiven d target⟩
  · obtain ⟨sheet, hparse, hentries, hgiven, d, hd, target, htarget, hinside⟩ : ∃ sheet,
        Stylesheet.parse ".a\x7b@keyframes k\x7bfrom\x7b@extend .t;\x7d\x7d\x7d" = .ok sheet ∧
        (collect .empty sheet).table.entries = [] ∧ (collect .empty sheet).log.given = [] ∧
        ∃ d ∈ sheet.directives, ∃ target ∈ d.targets, d.enclosing ≠ [] :=
      exists_of_any_toOption (by decide +kernel)
    exact ⟨sheet, hparse, hentries, hgiven, d, hd, target, htarget, hinside, silent hentries hgiven d target⟩

end Registry

end ScssExtend
