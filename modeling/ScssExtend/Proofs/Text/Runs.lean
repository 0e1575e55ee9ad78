import Mathlib.Data.List.DropRight
import Mathlib.Data.List.TakeWhile
import Mathlib.Tactic.Lemma
import ScssExtend.Selector.Grammar

/-!
# Runs of characters that readers take whole

An `EscapedRun` consists of plain characters and complete backslash pairs. A name (`IsName`) is a nonempty run
of identifier characters, and the value of an attribute is a run as well. An argument is `IsBalanced` when its
parentheses match and `IsTrimmed` when it neither begins nor ends with a blank. Readers take such texts whole
when what follows cannot continue them (`readName_append`, `spanQuoted_append`, `spanArgument_append`), and
what they take is always such a text.
-/

namespace ScssExtend.Text

open Grammar Simple

/-- Characters that `plain` allows, and backslashes each with one more character. -/
inductive EscapedRun (plain : Char → Bool) : List Char → Prop where
  | nil : EscapedRun plain []
  | plain {c cs} : plain c → c ≠ '\\' → EscapedRun plain cs → EscapedRun plain (c :: cs)
  | escape {c cs} : EscapedRun plain cs → EscapedRun plain ('\\' :: c :: cs)

/-- A nonempty run of identifier characters and backslash pairs. -/
def IsName (cs : List Char) : Prop :=
  cs ≠ [] ∧ EscapedRun isIdentChar cs

/-- The text does not begin with a blank character. -/
def BeginsNonblank (cs : List Char) : Prop :=
  ∀ c ∈ cs.head?, isBlank c = false

/-- The text has no blank character at either end. -/
def IsTrimmed (cs : List Char) : Prop :=
  BeginsNonblank cs ∧ ∀ c ∈ cs.getLast?, isBlank c = false

/-- The number of open parentheses behind a text that begins with `depth` open ones, `none` when one is closed
that was never opened. -/
def depthAfter? (depth : Nat) : List Char → Option Nat
  | [] => some depth
  | c :: cs =>
    if c = ')' then
      match depth with
      | 0 => none
      | depth + 1 => depthAfter? depth cs
    else if c = '(' then depthAfter? (depth + 1) cs
    else depthAfter? depth cs

/-- Every parenthesis that the text opens is closed in it, and no other one is. -/
def IsBalanced (cs : List Char) : Prop :=
  depthAfter? 0 cs = some 0

/-- The text does not go on with a name. -/
def EndsName (rest : List Char) : Prop :=
  ∀ c ∈ rest.head?, isIdentChar c = false ∧ c ≠ '\\'

instance EscapedRun.decidable (plain : Char → Bool) : DecidablePred (EscapedRun plain)
  | [] => .isTrue .nil
  | [c] =>
    if h : plain c ∧ c ≠ '\\' then .isTrue (.plain h.1 h.2 .nil)
    else .isFalse fun hrun => by cases hrun with | plain hp hne _ => exact h ⟨hp, hne⟩
  | c :: d :: cs =>
    if hc : c = '\\' then
      match EscapedRun.decidable plain cs with
      | .isTrue h => .isTrue (by rw [hc]; exact .escape h)
      | .isFalse h => .isFalse fun hrun => by
          cases hrun with
          | plain _ hne _ => exact hne hc
          | escape hrun => exact h hrun
    else
      match EscapedRun.decidable plain (d :: cs) with
      | .isTrue h =>
        if hp : plain c then .isTrue (.plain hp hc h)
        else .isFalse fun hrun => by
          cases hrun with
          | plain hp' _ _ => exact hp hp'
          | escape _ => exact hc rfl
      | .isFalse h => .isFalse fun hrun => by
          cases hrun with
          | plain _ _ hrun => exact h hrun
          | escape _ => exact hc rfl

-- These two look at the given characters only; there are instances that go through all characters there are.
instance decidableForallMemChar (o : Option Char) (p : Char → Prop) [DecidablePred p] :
    Decidable (∀ c ∈ o, p c) :=
  Option.decidableForallMem o

instance decidableExistsMemChar (cs : List Char) (p : Char → Prop) [DecidablePred p] :
    Decidable (∃ c ∈ cs, p c) :=
  List.decidableBEx p cs

instance : DecidablePred IsName := fun _ => inferInstanceAs (Decidable (_ ∧ _))

instance : DecidablePred BeginsNonblank := fun cs =>
  inferInstanceAs (Decidable (∀ c ∈ cs.head?, isBlank c = false))

instance : DecidablePred IsTrimmed := fun cs =>
  inferInstanceAs (Decidable (BeginsNonblank cs ∧ ∀ c ∈ cs.getLast?, isBlank c = false))

instance : DecidablePred IsBalanced := fun cs => inferInstanceAs (Decidable (depthAfter? 0 cs = some 0))

/-! ## Letters and digits -/

/-- The letters are the two ranges of the ASCII alphabet. -/
lemma isAlpha_iff_toNat {c : Char} :
    c.isAlpha ↔ 65 ≤ c.toNat ∧ c.toNat ≤ 90 ∨ 97 ≤ c.toNat ∧ c.toNat ≤ 122 := by
  change (c.isUpper || c.isLower) ↔ _
  rw [Bool.or_eq_true]
  refine or_congr decide_eq_true_iff ?_
  change (decide _ && decide _) ↔ _
  rw [Bool.and_eq_true]
  exact and_congr decide_eq_true_iff decide_eq_true_iff

/-- A letter is no blank. -/
lemma isBlank_of_isAlpha {c : Char} (h : c.isAlpha) : isBlank c = false := by
  rw [isAlpha_iff_toNat] at h
  simp [isBlank, blankRanges]
  omega

/-- No digit starts an identifier. -/
lemma isDigit_of_isIdentStart {c : Char} (h : isIdentStart c) : c.isDigit = false := by
  rw [Bool.eq_false_iff, ne_eq, Char.isDigit_iff_toNat]
  rintro ⟨hlow, hhigh⟩
  change 48 ≤ c.toNat at hlow
  change c.toNat ≤ 57 at hhigh
  simp only [isIdentStart, Bool.or_eq_true, decide_eq_true_eq, isAlpha_iff_toNat] at h
  obtain (h | rfl) | h := h
  · omega
  · exact absurd hhigh (by decide)
  · omega

/-! ## Names -/

/-- Two runs in a row are a run. -/
lemma EscapedRun.append {plain : Char → Bool} {cs ds : List Char} (hc : EscapedRun plain cs)
    (hd : EscapedRun plain ds) : EscapedRun plain (cs ++ ds) := by
  induction hc with
  | nil => exact hd
  | plain hp hne _ ih => exact .plain hp hne ih
  | escape _ ih => exact .escape ih

/-- A run stays one when more characters count as plain. -/
lemma EscapedRun.mono {p q : Char → Bool} {cs : List Char} (h : EscapedRun p cs)
    (hpq : ∀ c, p c → q c) : EscapedRun q cs := by
  induction h with
  | nil => exact .nil
  | plain hp hne _ ih => exact .plain (hpq _ hp) hne ih
  | escape _ ih => exact .escape ih

/-- A run that a plain character begins is a run behind it. -/
lemma EscapedRun.cons_iff {plain : Char → Bool} {c : Char} {cs : List Char} (hc : c ≠ '\\') :
    EscapedRun plain (c :: cs) ↔ plain c ∧ EscapedRun plain cs := by
  constructor
  · intro h
    cases h with
    | plain hplain _ h => exact ⟨hplain, h⟩
    | escape => exact absurd rfl hc
  · rintro ⟨hplain, h⟩
    exact .plain hplain hc h

/-- A run that an escape begins is a run behind the escaped character. -/
lemma EscapedRun.pair_iff {plain : Char → Bool} {c : Char} {cs : List Char} :
    EscapedRun plain ('\\' :: c :: cs) ↔ EscapedRun plain cs := by
  constructor
  · intro h
    cases h with
    | plain _ hne => exact absurd rfl hne
    | escape h => exact h
  · exact .escape

/-- A name begins with an identifier character or a backslash. -/
lemma IsName.head {c : Char} {cs : List Char} (h : IsName (c :: cs)) : isIdentChar c ∨ c = '\\' := by
  cases h.2 with
  | plain hc _ _ => exact .inl hc
  | escape _ => exact .inr rfl

/-- A name begins with an identifier character or a backslash. -/
lemma IsName.head_ne {c d : Char} {cs : List Char} (h : IsName (c :: cs))
    (hd : ¬(isIdentChar d ∨ d = '\\')) : c ≠ d := by
  rintro rfl
  exact hd h.head

/-- A run of identifier characters and escapes is taken whole, with what continues it. -/
lemma spanName_run_append {cs : List Char} (h : EscapedRun isIdentChar cs) (rest : List Char) :
    spanName (fun _ => true) (cs ++ rest) =
      (cs ++ (spanName (fun _ => true) rest).1, (spanName (fun _ => true) rest).2) := by
  induction h with
  | nil => rfl
  | plain hc _ _ ih => rw [List.cons_append, spanName_cons _ hc, ih, List.cons_append]
  | escape _ ih => rw [List.cons_append, List.cons_append, spanName_escape _ rfl, ih]; rfl

/-- No name is taken off a text that nothing of a name begins. -/
lemma spanName_of_endsName {rest : List Char} (h : EndsName rest) :
    spanName (fun _ => true) rest = ([], rest) := by
  cases rest with
  | nil => rfl
  | cons c cs =>
    obtain ⟨hc, hne⟩ := h c rfl
    exact spanName_stop cs hc hne

/-- A name is read whole when the text does not go on with it. -/
lemma readName_append {cs rest : List Char} (h : IsName cs) (hrest : EndsName rest) (kind : NameKind) :
    readName kind (cs ++ rest) = .ok (String.ofList cs, rest) := by
  have hspan : spanName (fun _ => true) (cs ++ rest) = (cs, rest) := by
    rw [spanName_run_append h.2, spanName_of_endsName hrest, List.append_nil]
  obtain ⟨c, cs, rfl⟩ := List.exists_cons_of_ne_nil h.1
  rw [readName, hspan]

/-- In front of such a text the reader of a name fails where it stands. -/
lemma readName_of_endsName {rest : List Char} (h : EndsName rest) (kind : NameKind) :
    readName kind rest = .error ⟨.nameExpected kind, rest⟩ := by
  rw [readName, spanName_of_endsName h]

/-- What is taken as a name is a run of identifier characters and escapes. -/
lemma escapedRun_spanName (cs : List Char) :
    EscapedRun isIdentChar (spanName (fun _ => true) cs).1 := by
  fun_induction spanName (fun _ => true) cs with
  | case1 => exact .nil
  | case2 c cs hc name rest heq ih =>
    rw [heq] at ih
    refine .plain hc ?_ ih
    intro hn
    subst hn
    exact absurd hc (by decide)
  | case3 => exact .nil
  | case4 d ds _ name rest heq _ ih =>
    rw [heq] at ih
    exact .escape ih
  | case5 => exact .nil
  | case6 => exact .nil

/-- What the reader of a name gives is a name. -/
lemma isName_of_readName {kind : NameKind} {cs rest : List Char} {name : String}
    (h : readName kind cs = .ok (name, rest)) : IsName name.toList := by
  have hrun := escapedRun_spanName cs
  unfold readName at h
  split at h
  · cases h
  · next hne heq =>
    cases h
    rw [heq] at hrun
    rw [String.toList_ofList]
    exact ⟨fun hn => hne hn, hrun⟩

/-- What is read as a name stands at the beginning of the text. -/
lemma head?_of_readName {kind : NameKind} {cs rest : List Char} {name : String}
    (h : readName kind cs = .ok (name, rest)) : name.toList.head? = cs.head? := by
  have happ := spanName_append (fun _ => true) cs
  unfold readName at h
  split at h
  · cases h
  · next name hne heq =>
    cases h
    rw [heq] at happ
    rw [String.toList_ofList, ← happ, List.head?_append_of_ne_nil _ (fun hn => hne hn)]

/-! ## Blanks -/

/-- No blanks are skipped in front of a nonblank. -/
lemma skipBlanks_eq_self {cs : List Char} (h : BeginsNonblank cs) : skipBlanks cs = cs := by
  cases cs with
  | nil => rfl
  | cons c cs => exact List.dropWhile_cons_of_neg (by simp [h c rfl])

/-- Behind the skipped blanks stands a nonblank, or nothing. -/
lemma beginsNonblank_skipBlanks (cs : List Char) : BeginsNonblank (skipBlanks cs) := by
  intro c hc
  have h := List.head?_dropWhile_not isBlank cs
  rw [show (cs.dropWhile isBlank).head? = some c from hc] at h
  exact h

/-- A blank in front makes no difference to what is left. -/
lemma skipBlanks_cons {c : Char} (cs : List Char) (h : isBlank c) :
    skipBlanks (c :: cs) = skipBlanks cs :=
  List.dropWhile_cons_of_pos h

/-- A nonempty text that begins with a nonblank keeps doing so whatever follows. -/
lemma BeginsNonblank.append {cs : List Char} (h : BeginsNonblank cs) (hne : cs ≠ [])
    (rest : List Char) : BeginsNonblank (cs ++ rest) := by
  intro c hc
  rw [List.head?_append_of_ne_nil _ hne] at hc
  exact h c hc

/-- The program drops from the end what Mathlib's `rdropWhile` drops. -/
lemma dropEndWhile_eq_rdropWhile {α : Type} (p : α → Bool) (cs : List α) :
    dropEndWhile p cs = cs.rdropWhile p :=
  rfl

/-- Trimming leaves a trimmed text alone. -/
lemma trim_eq_self {cs : List Char} (h : IsTrimmed cs) : trim cs = cs := by
  have hhead : cs.dropWhile isBlank = cs := skipBlanks_eq_self h.1
  rw [trim, hhead, dropEndWhile_eq_rdropWhile, List.rdropWhile_eq_self_iff]
  intro hne
  rw [h.2 _ (List.getLast?_eq_getLast_of_ne_nil hne)]
  exact Bool.false_ne_true

/-- Trimming gives a trimmed text. -/
lemma isTrimmed_trim (cs : List Char) : IsTrimmed (trim cs) := by
  constructor
  · intro c hc
    apply beginsNonblank_skipBlanks cs
    obtain ⟨blanks, heq⟩ := List.rdropWhile_prefix isBlank (cs.dropWhile isBlank)
    rw [skipBlanks, ← heq]
    exact List.mem_head?_append_of_mem_head? hc
  · intro c hc
    obtain ⟨hne, rfl⟩ := List.mem_getLast?_eq_getLast hc
    exact Bool.eq_false_iff.2 (List.rdropWhile_last_not isBlank _ hne)

/-- What is trimmed off is blank. -/
lemma exists_trim_append (cs : List Char) : ∃ before behind, before ++ (trim cs ++ behind) = cs ∧
    (∀ c ∈ before, isBlank c) ∧ ∀ c ∈ behind, isBlank c := by
  refine ⟨cs.takeWhile isBlank, (cs.dropWhile isBlank).rtakeWhile isBlank, ?_,
    fun _ => List.mem_takeWhile_imp, fun _ => List.mem_rtakeWhile_imp⟩
  rw [trim, dropEndWhile_eq_rdropWhile, List.rdropWhile_append_rtakeWhile, List.takeWhile_append_dropWhile]

/-- A blank character in front of a text is trimmed off. -/
lemma trim_cons_blank {c : Char} (cs : List Char) (h : isBlank c) : trim (c :: cs) = trim cs := by
  rw [trim, trim, List.dropWhile_cons_of_pos h]

/-- A blank character behind a text is trimmed off. -/
lemma trim_concat_blank {c : Char} (cs : List Char) (h : isBlank c) : trim (cs ++ [c]) = trim cs := by
  rw [trim, trim, List.dropWhile_append]
  split
  · next hempty =>
    rw [List.dropWhile_cons_of_pos h, List.isEmpty_iff.1 hempty]
    rfl
  · rw [dropEndWhile_eq_rdropWhile, dropEndWhile_eq_rdropWhile, List.rdropWhile_concat_pos _ _ _ h]

/-- No blank stands in front of a text that begins with none. -/
lemma eq_nil_of_blank {blanks cs ds : List Char} (hblanks : ∀ c ∈ blanks, isBlank c) (h : BeginsNonblank ds)
    (heq : blanks ++ cs = ds) : blanks = [] := by
  cases blanks with
  | nil => rfl
  | cons c blanks =>
    have hc := h c (by rw [← heq]; rfl)
    rw [hblanks c List.mem_cons_self] at hc
    cases hc

/-! ## Quoted values -/

/-- A run without a bare quote between two quotes is read whole. -/
lemma spanQuoted_append {quote : Char} {cs : List Char} (h : EscapedRun (· ≠ quote) cs)
    (hquote : quote ≠ '\\') (rest : List Char) :
    spanQuoted quote (cs ++ quote :: rest) = some (cs, rest) := by
  induction h with
  | nil => rw [List.nil_append, spanQuoted.eq_def]; simp
  | plain hc hne _ ih =>
    have hc := of_decide_eq_true hc
    rw [List.cons_append, spanQuoted.eq_def]
    simp [hc, hne, ih]
  | escape _ ih =>
    rw [List.cons_append, List.cons_append, spanQuoted.eq_def]
    simp [hquote.symm, ih]

/-- What stands between two quotes is a run: no escape is cut in two. -/
lemma escapedRun_of_spanQuoted {quote : Char} {cs value rest : List Char}
    (h : spanQuoted quote cs = some (value, rest)) : EscapedRun (fun _ => true) value := by
  fun_induction spanQuoted quote cs generalizing value with
  | case1 => cases h
  | case2 => cases h; exact .nil
  | case3 => cases h
  | case4 d ds _ ih =>
    obtain ⟨p, hp, heq⟩ := Option.map_eq_some_iff.1 h
    cases heq
    exact .escape (ih hp)
  | case5 c cs _ hne ih =>
    obtain ⟨p, hp, heq⟩ := Option.map_eq_some_iff.1 h
    cases heq
    exact .plain rfl hne (ih hp)

/-- Between double quotes every run is written without a bare double quote. -/
lemma escapedRun_quoteBody {cs : List Char} (h : EscapedRun (fun _ => true) cs) :
    EscapedRun (· ≠ '"') (quoteBody cs) := by
  induction h with
  | nil => exact .nil
  | @plain c cs _ hne _ ih =>
    rw [quoteBody.eq_def]
    by_cases hc : c = '"'
    · -- a bare quote gains a backslash
      simp only [hc]
      exact .escape ih
    · simp only [hne, hc, if_false]
      exact .plain (decide_eq_true hc) hne ih
  | escape _ ih =>
    rw [quoteBody.eq_def]
    exact .escape ih

/-- The body of a quoted text without quotes is that text. -/
lemma quoteBody_eq_self {cs : List Char} (h : EscapedRun (· ≠ '"') cs) : quoteBody cs = cs := by
  induction h with
  | nil => rfl
  | plain hc hne _ ih =>
    have hc := of_decide_eq_true hc
    rw [quoteBody.eq_def]
    simp only [hne, hc, if_false, ih]
  | escape _ ih =>
    rw [quoteBody.eq_def]
    simp only [if_true, ih]

/-- Every change that quoting makes brings in a backslash. -/
lemma quoteBody_eq_self_of_not_mem {cs : List Char} (h : '\\' ∉ quoteBody cs) : quoteBody cs = cs := by
  fun_induction quoteBody cs with
  | case1 => rfl
  | case2 => rfl
  | case3 => exact absurd List.mem_cons_self h
  | case4 => exact absurd List.mem_cons_self h
  | case5 c cs _ _ ih => rw [ih fun hmem => h (List.mem_cons_of_mem c hmem)]

/-! ## Arguments -/

/-- A balanced argument is taken whole in front of its closing parenthesis. -/
lemma spanArgument_append {depth : Nat} {cs : List Char} (h : depthAfter? depth cs = some 0)
    (rest : List Char) : spanArgument depth (cs ++ ')' :: rest) = some (cs, rest) := by
  fun_induction depthAfter? depth cs with
  | case1 => cases h; simp [spanArgument]
  | case2 => cases h
  | case3 cs depth ih =>
    rw [List.cons_append, spanArgument.eq_def]
    simp [ih h]
  | case4 depth cs hne ih =>
    rw [List.cons_append, spanArgument.eq_def]
    simp [ih h]
  | case5 depth c cs hclose hopen ih =>
    rw [List.cons_append, spanArgument.eq_def]
    simp [hclose, hopen, ih h]

/-- What is taken as an argument closes every parenthesis it opens. -/
lemma depthAfter?_of_spanArgument {depth : Nat} {cs argument rest : List Char}
    (h : spanArgument depth cs = some (argument, rest)) : depthAfter? depth argument = some 0 := by
  fun_induction spanArgument depth cs generalizing argument with
  | case1 => cases h
  | case2 => cases h; rfl
  | case3 cs depth ih =>
    obtain ⟨p, hp, heq⟩ := Option.map_eq_some_iff.1 h
    cases heq
    simpa [depthAfter?] using ih hp
  | case4 depth cs _ ih =>
    obtain ⟨p, hp, heq⟩ := Option.map_eq_some_iff.1 h
    cases heq
    simpa [depthAfter?] using ih hp
  | case5 depth c cs hclose hopen ih =>
    obtain ⟨p, hp, heq⟩ := Option.map_eq_some_iff.1 h
    cases heq
    simpa [depthAfter?, hclose, hopen] using ih hp

/-- The depth behind two texts is counted through the first and on through the second. -/
lemma depthAfter?_append (depth : Nat) (cs ds : List Char) :
    depthAfter? depth (cs ++ ds) = (depthAfter? depth cs).bind (depthAfter? · ds) := by
  fun_induction depthAfter? depth cs <;> simp_all [depthAfter?]

/-- Blanks open and close nothing. -/
lemma depthAfter?_of_blank {cs : List Char} (h : ∀ c ∈ cs, isBlank c) (depth : Nat) :
    depthAfter? depth cs = some depth := by
  induction cs with
  | nil => rfl
  | cons c cs ih =>
    have hc := h c List.mem_cons_self
    have hclose : c ≠ ')' := by rintro rfl; exact absurd hc (by decide)
    have hopen : c ≠ '(' := by rintro rfl; exact absurd hc (by decide)
    rw [depthAfter?.eq_def]
    simp only [hclose, hopen, if_false]
    exact ih fun d hd => h d (List.mem_cons_of_mem c hd)

/-- Trimming does not change the depth. -/
lemma depthAfter?_trim (depth : Nat) (cs : List Char) :
    depthAfter? depth (trim cs) = depthAfter? depth cs := by
  obtain ⟨before, behind, heq, hbefore, hbehind⟩ := exists_trim_append cs
  conv => rhs; rw [← heq]
  rw [depthAfter?_append, depthAfter?_of_blank hbefore, Option.bind_some, depthAfter?_append]
  simp [depthAfter?_of_blank hbehind]

end ScssExtend.Text
