import Mathlib.Algebra.Order.BigOperators.Group.List
import Mathlib.Algebra.Order.Group.Nat
import ScssExtend.Proofs.Selector.Composition
import ScssExtend.Proofs.Selector.RoundTrip

/-!
# When canonical text is stable

A list that was read is written in canonical text, and what this text is read as is well formed. So a second
reading changes nothing any more. The first one keeps the text exactly when all components are stable
(`SelectorList.text_stable_iff`): a bare value that begins with blanks loses them, and no other part of the text
can make up for it (`KeptIf`).
-/

namespace ScssExtend

open Text Grammar

/-- If `p` holds, the first text is the second one, and otherwise it has fewer blank characters. -/
structure KeptIf (p : Prop) (cs ds : List Char) : Prop where
  eq : p → cs = ds
  lt : ¬p → cs.countP isBlank < ds.countP isBlank

namespace KeptIf

variable {p q : Prop} {cs cs' ds ds' : List Char}

/-- Where the texts are equal, a condition that holds is the one under which they are. -/
lemma of_eq (h : cs = ds) (hp : p) : KeptIf p cs ds :=
  ⟨fun _ => h, fun hn => absurd hp hn⟩

/-- The first text never has more blanks. -/
lemma le (h : KeptIf p cs ds) : cs.countP isBlank ≤ ds.countP isBlank := by
  by_cases hp : p
  · rw [h.eq hp]
  · exact (h.lt hp).le

/-- The texts are equal exactly if the condition holds. -/
lemma eq_iff (h : KeptIf p cs ds) : cs = ds ↔ p := by
  refine ⟨fun heq => by_contra fun hp => ?_, h.eq⟩
  have hlt := h.lt hp
  rw [heq] at hlt
  exact hlt.false

/-- Two texts written one behind the other are kept if both parts are. -/
lemma append (h : KeptIf p cs ds) (h' : KeptIf q cs' ds') : KeptIf (p ∧ q) (cs ++ cs') (ds ++ ds') := by
  constructor
  · rintro ⟨hp, hq⟩
    rw [h.eq hp, h'.eq hq]
  · intro hn
    rw [List.countP_append, List.countP_append]
    have hle := h.le
    have hle' := h'.le
    by_cases hp : p
    · have hlt := h'.lt fun hq => hn ⟨hp, hq⟩
      omega
    · have hlt := h.lt hp
      omega

/-- What is written around a text makes no difference to whether it is kept. -/
lemma between (h : KeptIf p cs ds) (front back : List Char) :
    KeptIf p (front ++ (cs ++ back)) (front ++ (ds ++ back)) := by
  have hall := (of_eq (rfl : front = front) trivial).append (h.append (of_eq (rfl : back = back) trivial))
  rwa [and_true, true_and] at hall

/-- Texts one behind the other are kept if each of them is. -/
lemma flatMap {α : Type} {as : List α} {f g : α → List Char} {p : α → Prop}
    (h : ∀ a ∈ as, KeptIf (p a) (f a) (g a)) : KeptIf (∀ a ∈ as, p a) (as.flatMap f) (as.flatMap g) := by
  constructor
  · exact fun hp => List.flatMap_congr fun a ha => (h a ha).eq (hp a ha)
  · intro hn
    obtain ⟨a, hn⟩ := not_forall.1 hn
    obtain ⟨ha, hn⟩ := Classical.not_imp.1 hn
    rw [List.countP_flatMap, List.countP_flatMap]
    exact List.sum_lt_sum _ _ (fun b hb => (h b hb).le) ⟨a, ha, (h a ha).lt hn⟩

end KeptIf

/-! ## Values -/

namespace Simple

/-- Identifier characters have no quotes among them. -/
lemma escapedRun_of_isIdentChar {cs : List Char} (h : ∀ c ∈ cs, isIdentChar c) :
    EscapedRun (· ≠ '"') cs := by
  refine (escapedRun_of_all h).mono fun c hc => decide_eq_true ?_
  rintro rfl
  exact absurd hc (by decide)

/-- Quoting makes no identifier. -/
lemma isIdentifier_of_quoteBody {cs : List Char} (h : isIdentifier (quoteBody cs)) : isIdentifier cs := by
  have hself : quoteBody cs = cs := by
    refine quoteBody_eq_self_of_not_mem fun hmem => ?_
    exact absurd (isIdentChar_of_isIdentifier h _ hmem) (by decide)
  rwa [hself] at h

/-- What a value is read as has no bare quotes. -/
lemma escapedRun_rereadValue {cs : List Char} (h : EscapedRun (fun _ => true) cs) :
    EscapedRun (· ≠ '"') (rereadValue cs) := by
  unfold rereadValue
  split
  · next hid =>
    refine escapedRun_of_isIdentChar fun c hc => ?_
    exact isIdentChar_of_isIdentifier hid c ((List.dropWhile_suffix _).subset hc)
  · exact escapedRun_quoteBody h

/-- What a bare value is read as begins with a nonblank. -/
lemma beginsNonblank_rereadValue {cs : List Char} (h : isIdentifier (rereadValue cs)) :
    BeginsNonblank (rereadValue cs) := by
  by_cases hid : isIdentifier cs
  · rw [rereadValue, if_pos hid]
    exact beginsNonblank_skipBlanks cs
  · rw [rereadValue, if_neg hid] at h
    exact absurd (isIdentifier_of_quoteBody h) hid

/-- A stable value is written as before when it has been read again. -/
lemma valueText_reread {value : String} (hrun : EscapedRun (fun _ => true) value.toList)
    (hbegin : isIdentifier value.toList → BeginsNonblank value.toList) :
    valueText (String.ofList (rereadValue value.toList)) = valueText value := by
  unfold rereadValue
  split
  · next hid => rw [skipBlanks_eq_self (hbegin hid), String.ofList_toList]
  · next hid =>
    have hquoted := quoteBody_eq_self (escapedRun_quoteBody hrun)
    rw [valueText, valueText, String.toList_ofList, if_neg (mt isIdentifier_of_quoteBody hid), if_neg hid,
      hquoted]

/-- Quotes are not blank. -/
lemma countP_valueText {cs : List Char} (h : EscapedRun (· ≠ '"') cs) :
    (valueText (String.ofList cs)).toList.countP isBlank = cs.countP isBlank := by
  have hquote : isBlank '"' = false := by decide
  unfold valueText
  rw [String.toList_ofList, quoteBody_eq_self h]
  split
  · rw [String.toList_ofList]
  · simp [hquote]

/-- The text of a value is kept unless it is bare and begins with a blank. -/
lemma keptIf_valueText {value : String} (hrun : EscapedRun (fun _ => true) value.toList) :
    KeptIf (isIdentifier value.toList → BeginsNonblank value.toList)
      (valueText (String.ofList (rereadValue value.toList))).toList (valueText value).toList := by
  refine ⟨fun hbegin => by rw [valueText_reread hrun hbegin], fun hn => ?_⟩
  obtain ⟨hid, hbegin⟩ := Classical.not_imp.1 hn
  -- written bare or between quotes, what is left has a blank less
  obtain ⟨c, cs, hcons, hblank⟩ : ∃ c cs, value.toList = c :: cs ∧ isBlank c := by
    simpa [BeginsNonblank, List.head?_eq_some_iff] using hbegin
  rw [countP_valueText (escapedRun_rereadValue hrun), valueText, if_pos hid, rereadValue, if_pos hid, hcons,
    skipBlanks_cons cs hblank, List.countP_cons_of_pos hblank]
  exact Nat.lt_succ_of_le (List.dropWhile_sublist _).countP_le

/-! ## Components and compounds -/

variable {s : Simple}

/-- A spelled component is read again as a well-formed one. -/
lemma isWellFormed_reread (h : s.IsSpelled) : s.reread.IsWellFormed := by
  cases s with
  | attr name matcher =>
    cases matcher with
    | none => exact ⟨h, fun m hm => absurd hm (by simp [reread, matcher?])⟩
    | some m =>
      obtain ⟨hname, hbegin, hvalue⟩ := h
      have hrun := escapedRun_rereadValue (hvalue m rfl)
      refine ⟨⟨hname, hbegin, fun m' hm' => ?_⟩, fun m' hm' => ?_⟩
      · cases hm'
        rw [String.toList_ofList]
        exact hrun.mono fun _ _ => rfl
      · cases hm'
        rw [String.toList_ofList]
        exact ⟨hrun, beginsNonblank_rereadValue⟩
  | _ => exact ⟨h, fun m hm => absurd hm (by simp [reread, matcher?])⟩

/-- The text of a component is kept exactly if its value is stable. -/
lemma keptIf_text (h : s.IsSpelled) : KeptIf s.IsStable s.reread.text.toList s.text.toList := by
  cases s with
  | attr name matcher =>
    cases matcher with
    | none => exact .of_eq rfl fun m hm => absurd hm (by simp [matcher?])
    | some m =>
      have hstable : (attr name (some m)).IsStable ↔
          (isIdentifier m.value.toList → BeginsNonblank m.value.toList) := by
        simp [IsStable, matcher?]
      have hvalue := keptIf_valueText (h.2.2 m rfl)
      have hbetween := hvalue.between ("[" ++ name ++ m.operator.text).toList "]".toList
      rw [hstable]
      simpa [reread, text, matcherText] using hbetween
  | _ => exact .of_eq rfl fun m hm => absurd hm (by simp [matcher?])

end Simple

namespace Compound

variable {c : Compound} (h : c.IsComposed) (ha : c.IsArranged)
include h ha

/-- A compound is read again as a well-formed one. -/
lemma isWellFormed_reread : c.reread.IsWellFormed := by
  refine ⟨h.reread_ne_nil, ?_, ?_⟩
  · rw [ha.reread_eq]
    exact List.forall_mem_map.2 fun s hs => Simple.isWellFormed_reread (h.isSpelled s hs)
  · rw [ha.reread_eq]
    exact ha.map_reread

/-- The text of a compound is kept exactly if its components are stable. -/
lemma keptIf_text : KeptIf (∀ s ∈ c.components, s.IsStable) c.reread.text.toList c.text.toList := by
  rw [ha.reread_eq, toList_text, toList_text, spelling, spelling, List.flatMap_map]
  exact .flatMap fun s hs => Simple.keptIf_text (h.isSpelled s hs)

end Compound

/-! ## Chains and lists -/

namespace Complex

/-- The components of all compounds. -/
def components (x : Complex) : List Simple :=
  x.links.flatMap fun k => k.compound.components

variable {x : Complex} (h : x.IsComposed) (ha : ∀ k ∈ x.links, k.compound.IsArranged)
include h ha

/-- A chain is read again as a well-formed one. -/
lemma isWellFormed_reread : x.reread.IsWellFormed := by
  refine ⟨mt List.map_eq_nil_iff.1 h.nonempty, List.forall_mem_map.2 fun k hk => ?_⟩
  exact Compound.isWellFormed_reread (h.compounds k hk) (ha k hk)

/-- The text of a chain is kept exactly if its components are stable. -/
lemma keptIf_text : KeptIf (∀ s ∈ x.components, s.IsStable) x.reread.text.toList x.text.toList := by
  have hlink (k : Link) (hk : k ∈ x.links) := Compound.keptIf_text (h.compounds k hk) (ha k hk)
  obtain ⟨_ | ⟨l, ls⟩⟩ := x
  · exact absurd rfl h.nonempty
  obtain ⟨hl, hls⟩ := List.forall_mem_cons.1 hlink
  have hchain : KeptIf (∀ k ∈ ls, ∀ s ∈ k.compound.components, s.IsStable)
      (chainText (ls.map Link.reread)) (chainText ls) := by
    rw [chainText, chainText, List.flatMap_map]
    refine .flatMap fun k hk => ?_
    simpa [Link.text, Link.reread] using (hls k hk).between k.combinator.text.toList []
  have hall := (hl.append hchain).between l.combinator.leadingText.toList []
  rw [components, List.forall_mem_flatMap, List.forall_mem_cons, toList_complex]
  simpa [reread, toList_complex, Link.reread] using hall

end Complex

namespace SelectorList

/-- The components of all selectors. -/
def components (l : SelectorList) : List Simple :=
  l.selectors.flatMap Complex.components

/-- What the text of the list is read as when it is readable. -/
def reread (l : SelectorList) : SelectorList :=
  ⟨l.selectors.map Complex.reread, l.position⟩

section Reread

variable {l : SelectorList} (h : l.IsComposed) (ha : ∀ x ∈ l.selectors, ∀ k ∈ x.links, k.compound.IsArranged)

include ha in
/-- The text is accepted unless a value vanishes. -/
lemma isReadable_iff : (∀ x ∈ l.selectors, x.IsReadable) ↔ ∀ s ∈ l.components, s.IsReadable := by
  have hx (x : Complex) (hx : x ∈ l.selectors) : x.IsReadable ↔ ∀ s ∈ x.components, s.IsReadable := by
    rw [Complex.components, List.forall_mem_flatMap]
    exact forall₂_congr fun k hk => (ha x hx k hk).isReadable_iff
  rw [components, List.forall_mem_flatMap]
  exact forall₂_congr hx

include h ha

/-- A list is read again as a well-formed one. -/
lemma isWellFormed_reread : l.reread.IsWellFormed := by
  refine ⟨mt List.map_eq_nil_iff.1 h.nonempty, List.forall_mem_map.2 fun x hx => ?_⟩
  exact Complex.isWellFormed_reread (h.selectors x hx) (ha x hx)

/-- The text of a list is kept exactly if all its components are stable. -/
lemma keptIf_text : KeptIf (∀ s ∈ l.components, s.IsStable) l.reread.text.toList l.text.toList := by
  have hx (x : Complex) (hx : x ∈ l.selectors) := Complex.keptIf_text (h.selectors x hx) (ha x hx)
  obtain ⟨_ | ⟨x, xs⟩, position⟩ := l
  · exact absurd rfl h.nonempty
  obtain ⟨hx, hxs⟩ := List.forall_mem_cons.1 hx
  have hfurther : KeptIf (∀ x ∈ xs, ∀ s ∈ x.components, s.IsStable)
      (furtherText (xs.map Complex.reread)) (furtherText xs) := by
    rw [furtherText, furtherText, List.flatMap_map]
    refine .flatMap fun y hy => ?_
    simpa using (hxs y hy).between [',', ' '] []
  rw [components, List.forall_mem_flatMap, List.forall_mem_cons, reread, List.map_cons, toList_selectors,
    toList_selectors]
  exact hx.append hfurther

/-- The text of the list is refused or read as `reread` says. -/
lemma parse_text_eq_ok_iff {m : SelectorList} : SelectorList.parse l.text l.position = .ok m ↔
    (∀ s ∈ l.components, s.IsReadable) ∧ l.reread = m := by
  rw [← isReadable_iff ha]
  by_cases hr : ∀ x ∈ l.selectors, x.IsReadable
  · rw [parse_text h.nonempty h.selectors hr, Except.ok.injEq]
    exact (and_iff_right hr).symm
  · obtain ⟨x, hx⟩ := not_forall.1 hr
    obtain ⟨hx, hbad⟩ := Classical.not_imp.1 hx
    obtain ⟨error, herror⟩ := parse_text_error h.selectors ⟨x, hx, hbad⟩ l.position
    rw [herror]
    exact ⟨nofun, fun hok => absurd hok.1 hr⟩

/-- What the text of the list is read as is read again as it is. -/
lemma parse_text_reread : SelectorList.parse l.reread.text l.position = .ok l.reread := by
  have hw := isWellFormed_reread h ha
  have hself : l.reread.selectors.map Complex.reread = l.reread.selectors :=
    (List.map_congr_left fun x hx => (hw.selectors x hx).reread_eq).trans (List.map_id _)
  rw [parse_text hw.nonempty (fun x hx => (hw.selectors x hx).isComposed)
    fun x hx => (hw.selectors x hx).isReadable, hself]
  rfl

end Reread

/-- The text of a list that was read is accepted exactly when no bare value has only blank characters, and is read
as a list with the same text exactly when no bare value begins with one. What it is read as no longer changes. -/
theorem text_stable_iff {text : String} {position : Position} {l : SelectorList}
    (h : SelectorList.parse text position = .ok l) :
    ((∃ m, SelectorList.parse l.text position = .ok m ∧ m.text = l.text) ↔ ∀ s ∈ l.components, s.IsStable) ∧
    ((∃ m, SelectorList.parse l.text position = .ok m) ↔ ∀ s ∈ l.components, s.IsReadable) ∧
    ∀ m, SelectorList.parse l.text position = .ok m → SelectorList.parse m.text position = .ok m := by
  have hc := isComposed_of_parse h
  have ha := isArranged_of_parse h
  obtain ⟨-, rfl⟩ := readSelectors_of_parse h
  -- the second text is refused, or read as `reread` says, which has kept it or not
  have hread {m : SelectorList} : SelectorList.parse l.text l.position = .ok m ↔ _ :=
    parse_text_eq_ok_iff hc ha
  have hkept : l.reread.text = l.text ↔ ∀ s ∈ l.components, s.IsStable := by
    rw [← String.toList_inj]
    exact (keptIf_text hc ha).eq_iff
  refine ⟨⟨?_, fun hstable => ?_⟩, ⟨?_, fun hr => ⟨_, hread.2 ⟨hr, rfl⟩⟩⟩, fun m hm => ?_⟩
  · rintro ⟨m, hm, htext⟩
    obtain ⟨-, rfl⟩ := hread.1 hm
    exact hkept.1 htext
  · exact ⟨_, hread.2 ⟨fun s hs => (hstable s hs).isReadable, rfl⟩, hkept.2 hstable⟩
  · rintro ⟨m, hm⟩
    exact (hread.1 hm).1
  · obtain ⟨-, rfl⟩ := hread.1 hm
    exact parse_text_reread hc ha

/-- A bare quote in the value is escaped: the list is read as another one, with the same text. -/
theorem text_stable_iff_quoted : ∃ l m, SelectorList.parse ".a[x='p\"q'] > b" .start = .ok l ∧
    SelectorList.parse l.text .start = .ok m ∧ m.text = l.text ∧ m ≠ l ∧
    SelectorList.parse m.text .start = .ok m := by
  obtain ⟨l, hparse, hstable, hother⟩ : ∃ l, SelectorList.parse ".a[x='p\"q'] > b" .start = .ok l ∧
      (∀ s ∈ l.components, s.IsStable) ∧
      (SelectorList.parse l.text .start).toOption.any fun m => decide (m ≠ l) :=
    exists_of_any_toOption (by decide +kernel)
  obtain ⟨hkept, -, hfixed⟩ := text_stable_iff hparse
  obtain ⟨m, hm, htext⟩ := hkept.2 hstable
  rw [hm] at hother
  exact ⟨l, m, hparse, hm, htext, of_decide_eq_true hother, hfixed m hm⟩

/-- A bare value loses the blank at its beginning, and a blank alone is no value. -/
theorem exists_text_unstable :
    (∃ l m, SelectorList.parse "[x=\"\u00a0y\"]" .start = .ok l ∧
      SelectorList.parse l.text .start = .ok m ∧ m.text ≠ l.text) ∧
    ∃ l, SelectorList.parse "[x=\"\u00a0\"]" .start = .ok l ∧
      ∀ m, SelectorList.parse l.text .start ≠ .ok m := by
  constructor
  · obtain ⟨l, hparse, htext⟩ : ∃ l, SelectorList.parse "[x=\"\u00a0y\"]" .start = .ok l ∧
        (SelectorList.parse l.text .start).toOption.any fun m => decide (m.text ≠ l.text) :=
      exists_of_any_toOption (by decide +kernel)
    obtain ⟨m, hm, hne⟩ := exists_of_any_toOption htext
    exact ⟨l, m, hparse, hm, hne⟩
  · obtain ⟨l, hparse, hrefused⟩ : ∃ l, SelectorList.parse "[x=\"\u00a0\"]" .start = .ok l ∧
        (SelectorList.parse l.text .start).toOption = none :=
      exists_of_any_toOption (by decide +kernel)
    refine ⟨l, hparse, fun m hm => ?_⟩
    rw [hm] at hrefused
    cases hrefused

end SelectorList

end ScssExtend
