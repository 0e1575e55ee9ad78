import ScssExtend.Proofs.Text.Runs
import ScssExtend.Token.Lexer

/-!
# What the readers of names, numbers, strings and addresses take

What a reader takes off a text is taken again from any text that begins with it, as long as what follows does not
continue it. For names this is told by `continuesName`, for numbers by the parts that a number consists of
(`IsNumber`, `spanNumber_run`); a string and an address say themselves where they end. Conversely a reader never
stops in front of a continuation (`continuesName_spanName`, `spanNumber_stops`).
-/

namespace ScssExtend.Lexer

open Text

/-! ## Names -/

/-- The text begins with a character, or an escape, that may stand in a name. -/
def continuesName : List Char → Bool
  | [] => false
  | c :: cs => isIdentChar c || c = '\\' && cs.head?.any nameEscape

/-- A name is read to its end: what is left does not continue it. -/
lemma continuesName_spanName (cs : List Char) : continuesName (spanName nameEscape cs).2 = false := by
  fun_induction spanName nameEscape cs with
  | case1 => rfl
  | case2 c cs hc name rest heq ih => rwa [heq] at ih
  | case3 => rfl
  | case4 d ds hd name rest heq hc ih => rwa [heq] at ih
  | case5 d ds hd hc => simp [continuesName, hc, hd]
  | case6 c cs hc hne => simp [continuesName, hc, hne]

/-- No name is taken off a text that neither an identifier character nor an escape begins. -/
lemma spanName_of_continuesName {cs : List Char} (h : continuesName cs = false) :
    spanName nameEscape cs = ([], cs) := by
  cases cs with
  | nil => rfl
  | cons c cs =>
    rw [spanName.eq_def]
    cases cs <;> simp_all [continuesName]

/-- A name is taken whole, and nothing else if nothing continues it. -/
lemma spanName_again (cs : List Char) {behind : List Char} (h : continuesName behind = false) :
    spanName nameEscape ((spanName nameEscape cs).1 ++ behind) = ((spanName nameEscape cs).1, behind) := by
  fun_induction spanName nameEscape cs with
  | case1 => exact spanName_of_continuesName h
  | case2 c cs hc name rest heq ih =>
    rw [heq] at ih
    rw [List.cons_append, spanName_cons _ hc, ih]
  | case3 => exact spanName_of_continuesName h
  | case4 d ds hd name rest heq hc ih =>
    rw [heq] at ih
    rw [List.cons_append, List.cons_append, spanName_escape _ hd, ih]
  | case5 => exact spanName_of_continuesName h
  | case6 => exact spanName_of_continuesName h

/-! ## Numbers -/

/-- The text begins with a digit. -/
def beginsDigit (cs : List Char) : Bool :=
  cs.head?.any Char.isDigit

/-- The text begins with a decimal point and a digit. -/
def beginsFraction : List Char → Bool
  | '.' :: cs => beginsDigit cs
  | _ => false

/-- The letter that may begin an exponent. -/
def isExponentLetter (c : Char) : Bool :=
  c = 'e' || c = 'E'

/-- The text begins with the letter E, a sign or none, and a digit. -/
def beginsExponent : List Char → Bool
  | [] => false
  | e :: cs => isExponentLetter e && beginsDigit (spanSign cs).2

/-- An exponent letter stands somewhere in the number. -/
def hasExponent (cs : List Char) : Bool :=
  cs.any isExponentLetter

/-- A number without fraction and exponent. -/
def isWhole (cs : List Char) : Bool :=
  cs.all fun c => c ≠ '.' && !isExponentLetter c

/-- A sign, or nothing. -/
def IsSign (cs : List Char) : Prop :=
  cs = [] ∨ cs = ['+'] ∨ cs = ['-']

/-- A decimal point and digits, or nothing. -/
inductive IsFraction : List Char → Prop where
  | nil : IsFraction []
  | digits {ds} : ds ≠ [] → (∀ d ∈ ds, d.isDigit) → IsFraction ('.' :: ds)

/-- The letter E with a sign or none and digits, or nothing. -/
inductive IsExponent : List Char → Prop where
  | nil : IsExponent []
  | digits {e sign ds} : isExponentLetter e → IsSign sign → ds ≠ [] → (∀ d ∈ ds, d.isDigit) →
    IsExponent (e :: (sign ++ ds))

/-- A written number and its parts. -/
inductive IsNumber : List Char → Prop where
  | parts {sign digits fraction exponent} : IsSign sign → (∀ d ∈ digits, d.isDigit) → IsFraction fraction →
    IsExponent exponent → digits ++ fraction ≠ [] → IsNumber (sign ++ (digits ++ (fraction ++ exponent)))

/-- What begins with a digit is told by the first character. -/
lemma beginsDigit_cons (c : Char) (cs : List Char) : beginsDigit (c :: cs) = c.isDigit := rfl

/-- A fraction begins with a point that a digit follows. -/
lemma beginsFraction_cons (c : Char) (cs : List Char) :
    beginsFraction (c :: cs) = (c = '.' && beginsDigit cs) := by
  unfold beginsFraction
  split
  · next heq =>
    cases heq
    rfl
  · next h =>
    have hc : c ≠ '.' := fun hc => h cs (by rw [hc])
    simp [hc]

/-- Digits keep beginning a text whatever is written behind them. -/
lemma beginsDigit_append {ds : List Char} (h : ds ≠ []) (hd : ∀ d ∈ ds, d.isDigit) (cs : List Char) :
    beginsDigit (ds ++ cs) := by
  obtain ⟨d, ds, rfl⟩ := List.exists_cons_of_ne_nil h
  simpa [beginsDigit] using hd d List.mem_cons_self

/-- No digits are taken off a text that begins with none. -/
lemma spanDigits_of_beginsDigit {cs : List Char} (h : beginsDigit cs = false) : spanDigits cs = ([], cs) := by
  cases cs with
  | nil => rfl
  | cons c cs =>
    have hc : ¬c.isDigit := by simpa [beginsDigit] using h
    simp [spanDigits, hc]

/-- A run of digits is taken whole in front of anything but a digit. -/
lemma spanDigits_run {ds behind : List Char} (hd : ∀ d ∈ ds, d.isDigit) (h : beginsDigit behind = false) :
    spanDigits (ds ++ behind) = (ds, behind) := by
  obtain ⟨htake, hdrop⟩ := Prod.mk.inj (spanDigits_of_beginsDigit h)
  rw [spanDigits, List.takeWhile_append_of_pos hd, List.dropWhile_append_of_pos hd, htake, hdrop,
    List.append_nil]

/-- The digits taken are digits. -/
lemma isDigit_of_mem_spanDigits (cs : List Char) : ∀ d ∈ (spanDigits cs).1, d.isDigit :=
  fun _ => List.mem_takeWhile_imp

/-- A text that begins with a digit gives at least one. -/
lemma spanDigits_ne_nil {cs : List Char} (h : beginsDigit cs) : (spanDigits cs).1 ≠ [] := by
  cases cs with
  | nil => cases h
  | cons c cs =>
    have hc : c.isDigit := by simpa [beginsDigit] using h
    simp [spanDigits, hc]

/-- Digits are read to the last: what is left begins with none. -/
lemma beginsDigit_spanDigits (cs : List Char) : beginsDigit (spanDigits cs).2 = false := by
  have h := List.head?_dropWhile_not Char.isDigit cs
  rw [beginsDigit, spanDigits]
  cases hc : (cs.dropWhile Char.isDigit).head? <;> simp_all

/-- No fraction is taken off a text that begins with none. -/
lemma spanFraction_of_beginsFraction {cs : List Char} (h : beginsFraction cs = false) :
    spanFraction cs = ([], cs) := by
  unfold spanFraction
  split
  · next d cs =>
    have hd : ¬d.isDigit := by simpa [beginsFraction, beginsDigit] using h
    rw [if_neg hd]
  · rfl

/-- A fraction is its point and the digits behind it. -/
lemma spanFraction_point {cs : List Char} (h : beginsDigit cs) :
    spanFraction ('.' :: cs) = ('.' :: (spanDigits cs).1, (spanDigits cs).2) := by
  cases cs with
  | nil => cases h
  | cons d cs =>
    have hd : d.isDigit := by simpa [beginsDigit] using h
    simp [spanFraction, hd]

/-- A fraction is taken whole where no digit follows, and an empty one where no fraction begins. -/
lemma spanFraction_run {fraction behind : List Char} (hf : IsFraction fraction)
    (hdigit : beginsDigit behind = false) (h : fraction = [] → beginsFraction behind = false) :
    spanFraction (fraction ++ behind) = (fraction, behind) := by
  cases hf with
  | nil => exact spanFraction_of_beginsFraction (h rfl)
  | digits hne hd =>
    rw [List.cons_append, spanFraction_point (beginsDigit_append hne hd behind), spanDigits_run hd hdigit]

/-- A fraction is taken where one begins, with all its digits. -/
lemma spanFraction_cases (cs : List Char) :
    (beginsFraction cs = false ∧ spanFraction cs = ([], cs)) ∨
    (IsFraction (spanFraction cs).1 ∧ (spanFraction cs).1 ≠ [] ∧ beginsDigit (spanFraction cs).2 = false) := by
  cases h : beginsFraction cs with
  | false => exact .inl ⟨rfl, spanFraction_of_beginsFraction h⟩
  | true =>
    unfold beginsFraction at h
    split at h
    · next cs =>
      rw [spanFraction_point h]
      exact .inr ⟨.digits (spanDigits_ne_nil h) (isDigit_of_mem_spanDigits cs), List.cons_ne_nil _ _,
        beginsDigit_spanDigits cs⟩
    · cases h

/-- A number without its sign begins with a digit or with the point. -/
lemma isDigit_or_eq_point {c : Char} {cs : List Char} (h : beginsDigit (c :: cs) ∨ beginsFraction (c :: cs)) :
    c.isDigit ∨ c = '.' := by
  rw [beginsDigit_cons, beginsFraction_cons, Bool.and_eq_true_iff, decide_eq_true_eq] at h
  exact h.imp_right And.left

/-- A sign is taken whole in front of the digits or the fraction. -/
lemma spanSign_run {sign behind : List Char} (hs : IsSign sign)
    (h : beginsDigit behind ∨ beginsFraction behind) : spanSign (sign ++ behind) = (sign, behind) := by
  obtain rfl | rfl | rfl := hs
  · cases behind with
    | nil => rfl
    | cons c cs =>
      have hsign : ¬(c = '+' ∨ c = '-') := by
        rintro (rfl | rfl) <;> exact absurd (isDigit_or_eq_point h) (by decide)
      simp [spanSign, hsign]
  · rfl
  · rfl

/-- What is taken as a sign is one, or nothing. -/
lemma isSign_spanSign (cs : List Char) : IsSign (spanSign cs).1 := by
  unfold spanSign
  split
  · exact .inl rfl
  · next c cs =>
    split
    · next h =>
      obtain rfl | rfl := h
      · exact .inr (.inl rfl)
      · exact .inr (.inr rfl)
    · exact .inl rfl

/-- No exponent is taken off a text that begins with none. -/
lemma spanExponent_of_beginsExponent {cs : List Char} (h : beginsExponent cs = false) :
    spanExponent cs = ([], cs) := by
  cases cs with
  | nil => rfl
  | cons e cs => simp_all [spanExponent, beginsExponent, isExponentLetter, beginsDigit]

/-- An exponent is its letter, the sign behind it and the digits behind that. -/
lemma spanExponent_letter {e : Char} {cs : List Char} (he : isExponentLetter e)
    (h : beginsDigit (spanSign cs).2) : spanExponent (e :: cs) =
      (e :: ((spanSign cs).1 ++ (spanDigits (spanSign cs).2).1), (spanDigits (spanSign cs).2).2) := by
  have hboth : (e = 'e' ∨ e = 'E') ∧ (spanSign cs).2.head?.any Char.isDigit :=
    ⟨by simpa [isExponentLetter] using he, h⟩
  rw [spanExponent]
  dsimp only
  rw [if_pos hboth]

/-- An exponent is taken whole where no digit follows, and an empty one where no exponent begins. -/
lemma spanExponent_run {exponent behind : List Char} (hexp : IsExponent exponent)
    (hdigit : beginsDigit behind = false) (h : exponent = [] → beginsExponent behind = false) :
    spanExponent (exponent ++ behind) = (exponent, behind) := by
  cases hexp with
  | nil => exact spanExponent_of_beginsExponent (h rfl)
  | @digits e sign ds he hs hne hd =>
    have hsign : spanSign (sign ++ (ds ++ behind)) = (sign, ds ++ behind) :=
      spanSign_run hs (.inl (beginsDigit_append hne hd behind))
    rw [List.cons_append, List.append_assoc,
      spanExponent_letter he (by rw [hsign]; exact beginsDigit_append hne hd behind), hsign,
      spanDigits_run hd hdigit]

/-- An exponent is taken where one begins, with all its digits. -/
lemma spanExponent_cases (cs : List Char) :
    (beginsExponent cs = false ∧ spanExponent cs = ([], cs)) ∨
    (IsExponent (spanExponent cs).1 ∧ (spanExponent cs).1 ≠ [] ∧ beginsDigit (spanExponent cs).2 = false) := by
  cases h : beginsExponent cs with
  | false => exact .inl ⟨rfl, spanExponent_of_beginsExponent h⟩
  | true =>
    cases cs with
    | nil => cases h
    | cons e cs =>
      obtain ⟨he, hdigit⟩ := Bool.and_eq_true_iff.1 h
      rw [spanExponent_letter he hdigit]
      exact .inr ⟨.digits he (isSign_spanSign cs) (spanDigits_ne_nil hdigit) (isDigit_of_mem_spanDigits _),
        List.cons_ne_nil _ _, beginsDigit_spanDigits _⟩

/-- A digit is no exponent letter. -/
lemma isExponentLetter_of_isDigit {c : Char} (h : c.isDigit) : isExponentLetter c = false := by
  rw [isExponentLetter, Bool.or_eq_false_iff]
  constructor <;> rw [decide_eq_false_iff_not] <;> rintro rfl <;> exact absurd h (by decide)

/-- A sign holds no exponent letter. -/
lemma isExponentLetter_of_isSign {cs : List Char} (h : IsSign cs) : ∀ c ∈ cs, isExponentLetter c = false := by
  obtain rfl | rfl | rfl := h
  · exact List.forall_mem_nil _
  · exact List.forall_mem_singleton.2 rfl
  · exact List.forall_mem_singleton.2 rfl

/-- A fraction holds no exponent letter. -/
lemma isExponentLetter_of_isFraction {cs : List Char} (h : IsFraction cs) :
    ∀ c ∈ cs, isExponentLetter c = false := by
  cases h with
  | nil => exact List.forall_mem_nil _
  | digits _ hd =>
    exact List.forall_mem_cons.2 ⟨by decide, fun c hc => isExponentLetter_of_isDigit (hd c hc)⟩

/-- No digit begins an exponent, nor an absent one in front of a text that no digit begins. -/
lemma beginsDigit_exponent {exponent behind : List Char} (h : IsExponent exponent)
    (hdigit : beginsDigit behind = false) : beginsDigit (exponent ++ behind) = false := by
  cases h with
  | nil => exact hdigit
  | @digits e _ _ he _ _ _ =>
    rw [List.cons_append, beginsDigit_cons, Bool.eq_false_iff]
    intro hd
    rw [isExponentLetter_of_isDigit hd] at he
    cases he

/-- No digit begins a fraction, nor an absent one in front of a text that no digit begins. -/
lemma beginsDigit_fraction {fraction behind : List Char} (h : IsFraction fraction)
    (hdigit : beginsDigit behind = false) : beginsDigit (fraction ++ behind) = false := by
  cases h with
  | nil => exact hdigit
  | digits => rfl

/-- No fraction begins an exponent, nor an absent one in front of a text that no fraction begins. -/
lemma beginsFraction_exponent {exponent behind : List Char} (h : IsExponent exponent)
    (hfraction : exponent = [] → beginsFraction behind = false) :
    beginsFraction (exponent ++ behind) = false := by
  cases h with
  | nil => exact hfraction rfl
  | @digits e _ _ he _ _ _ =>
    have hpoint : e ≠ '.' := by
      rintro rfl
      exact absurd he (by decide)
    simp [beginsFraction_cons, hpoint]

/-- A number is whole when both of its parts are. -/
lemma isWhole_append {cs ds : List Char} : isWhole (cs ++ ds) = (isWhole cs && isWhole ds) :=
  List.all_append

/-- An exponent letter stands in one of the two parts. -/
lemma hasExponent_append {cs ds : List Char} : hasExponent (cs ++ ds) = (hasExponent cs || hasExponent ds) :=
  List.any_append

/-- A text without exponent letters has no exponent. -/
lemma hasExponent_eq_false {cs : List Char} (h : ∀ c ∈ cs, isExponentLetter c = false) :
    hasExponent cs = false :=
  List.any_eq_false.2 fun c hc => by rw [h c hc]; exact Bool.false_ne_true

/-- A sign alone leaves a number whole. -/
lemma isWhole_of_isSign {cs : List Char} (h : IsSign cs) : isWhole cs := by
  obtain rfl | rfl | rfl := h <;> decide

/-- Digits alone leave a number whole. -/
lemma isWhole_of_isDigit {cs : List Char} (h : ∀ c ∈ cs, c.isDigit) : isWhole cs := by
  refine List.all_eq_true.2 fun c hc => ?_
  have hpoint : c ≠ '.' := by
    rintro rfl
    exact absurd (h _ hc) (by decide)
  simp [isExponentLetter_of_isDigit (h c hc), hpoint]

/-- With digits or a fraction a number begins with a digit or with a point. -/
lemma begins_parts {digits fraction : List Char} (hd : ∀ d ∈ digits, d.isDigit) (hf : IsFraction fraction)
    (hne : digits ++ fraction ≠ []) (behind : List Char) :
    beginsDigit (digits ++ (fraction ++ behind)) ∨ beginsFraction (digits ++ (fraction ++ behind)) := by
  cases digits with
  | nil =>
    cases hf with
    | nil => exact absurd rfl hne
    | digits hds hdigits => exact .inr (beginsDigit_append hds hdigits behind)
  | cons d ds => exact .inl (beginsDigit_append (List.cons_ne_nil d ds) hd _)

/-- A number is taken whole when nothing continues one of its parts. -/
lemma spanNumber_run {cs behind : List Char} (h : IsNumber cs) (hdigit : beginsDigit behind = false)
    (hfraction : isWhole cs → beginsFraction behind = false)
    (hexponent : hasExponent cs = false → beginsExponent behind = false) :
    spanNumber (cs ++ behind) = (cs, behind) := by
  obtain @⟨sign, digits, fraction, exponent, hs, hd, hf, he, hne⟩ := h
  have hsign := spanSign_run hs (begins_parts hd hf hne (exponent ++ behind))
  have hdigits : spanDigits (digits ++ (fraction ++ (exponent ++ behind))) =
      (digits, fraction ++ (exponent ++ behind)) :=
    spanDigits_run hd (beginsDigit_fraction hf (beginsDigit_exponent he hdigit))
  have hfrac : spanFraction (fraction ++ (exponent ++ behind)) = (fraction, exponent ++ behind) := by
    refine spanFraction_run hf (beginsDigit_exponent he hdigit) fun hnil => ?_
    refine beginsFraction_exponent he fun hnil' => hfraction ?_
    rw [hnil, hnil', List.append_nil, List.append_nil, isWhole_append, isWhole_of_isSign hs,
      isWhole_of_isDigit hd]
    rfl
  have hexp : spanExponent (exponent ++ behind) = (exponent, behind) := by
    refine spanExponent_run he hdigit fun hnil => hexponent ?_
    rw [hnil, List.append_nil, hasExponent_append, hasExponent_append,
      hasExponent_eq_false (isExponentLetter_of_isSign hs),
      hasExponent_eq_false fun c hc => isExponentLetter_of_isDigit (hd c hc),
      hasExponent_eq_false (isExponentLetter_of_isFraction hf)]
    rfl
  rw [List.append_assoc, List.append_assoc, List.append_assoc, spanNumber, hsign]
  dsimp only
  rw [hdigits]
  dsimp only
  rw [hfrac]
  dsimp only
  rw [hexp]
  simp

/-- A number begins where a digit or a fraction stands behind the sign. -/
lemma startsNumber_iff (cs : List Char) :
    startsNumber cs ↔ beginsDigit (spanSign cs).2 ∨ beginsFraction (spanSign cs).2 := by
  unfold startsNumber
  split
  · simp [spanSign, beginsDigit, beginsFraction]
  next c cs =>
  by_cases hs : c = '+' ∨ c = '-'
  · simp only [spanSign, hs, if_true]
    split
    · simp [beginsDigit_cons, beginsFraction_cons]
    · next d ds hpoint =>
      -- a point with nothing behind it begins no fraction
      have hfraction : beginsFraction (d :: ds) = false := by
        cases ds with
        | nil => simp [beginsFraction_cons, beginsDigit]
        | cons e es =>
          have hd : d ≠ '.' := fun hd => hpoint e es hd rfl
          simp [beginsFraction_cons, hd]
      simp [beginsDigit_cons, hfraction]
    · simp [beginsDigit, beginsFraction]
  · simp only [spanSign, hs, if_false, beginsDigit_cons, beginsFraction_cons]
    split
    · next hpoint =>
      subst hpoint
      simp [beginsDigit]
    · next hpoint => simp [hpoint]

/-- Where a number starts, digits stand behind the sign, or a fraction does. -/
lemma spanDigits_or_beginsFraction {cs : List Char} (h : startsNumber cs) :
    (spanDigits (spanSign cs).2).1 ≠ [] ∨ beginsFraction (spanDigits (spanSign cs).2).2 := by
  cases hdigit : beginsDigit (spanSign cs).2 with
  | true => exact .inl (spanDigits_ne_nil hdigit)
  | false =>
    rw [spanDigits_of_beginsDigit hdigit]
    refine .inr (((startsNumber_iff cs).1 h).resolve_left ?_)
    rw [hdigit]
    exact Bool.false_ne_true

/-- The parts that the reader of a number takes, and what it stops in front of. -/
lemma spanNumber_parts (cs : List Char) : ∃ sign digits fraction exponent,
    (spanNumber cs).1 = sign ++ (digits ++ (fraction ++ exponent)) ∧
    IsSign sign ∧ (∀ d ∈ digits, d.isDigit) ∧ IsFraction fraction ∧ IsExponent exponent ∧
    (startsNumber cs → digits ++ fraction ≠ []) ∧
    beginsDigit (spanNumber cs).2 = false ∧
    (fraction = [] → exponent = [] → beginsFraction (spanNumber cs).2 = false) ∧
    (exponent = [] → beginsExponent (spanNumber cs).2 = false) := by
  have hs := isSign_spanSign cs
  have hd := isDigit_of_mem_spanDigits (spanSign cs).2
  have hdigit := beginsDigit_spanDigits (spanSign cs).2
  have hstart : startsNumber cs → _ := spanDigits_or_beginsFraction
  simp only [spanNumber, List.append_assoc]
  generalize spanDigits (spanSign cs).2 = p at hd hdigit hstart
  obtain ⟨digits, cs₂⟩ := p
  dsimp only at hd hdigit hstart ⊢
  -- a part that is missing leaves the text as it is, and one that is there ends in front of no digit
  obtain ⟨hfraction, heq⟩ | ⟨hf, hfne, hfdigit⟩ := spanFraction_cases cs₂
  · have hne (h : startsNumber cs) : digits ++ [] ≠ [] := by
      rw [List.append_nil]
      refine (hstart h).resolve_right ?_
      rw [hfraction]
      exact Bool.false_ne_true
    rw [heq]
    obtain ⟨hexp, heq⟩ | ⟨he, hene, hedigit⟩ := spanExponent_cases cs₂
    · rw [heq]
      exact ⟨_, digits, [], [], rfl, hs, hd, .nil, .nil, hne, hdigit, fun _ _ => hfraction, fun _ => hexp⟩
    · exact ⟨_, digits, [], _, rfl, hs, hd, .nil, he, hne, hedigit, fun _ h => absurd h hene,
        fun h => absurd h hene⟩
  · have hne : digits ++ (spanFraction cs₂).1 ≠ [] := fun h => hfne (List.append_eq_nil_iff.1 h).2
    obtain ⟨hexp, heq⟩ | ⟨he, hene, hedigit⟩ := spanExponent_cases (spanFraction cs₂).2
    · rw [heq]
      exact ⟨_, digits, _, [], rfl, hs, hd, hf, .nil, fun _ => hne, hfdigit, fun h => absurd h hfne,
        fun _ => hexp⟩
    · exact ⟨_, digits, _, _, rfl, hs, hd, hf, he, fun _ => hne, hedigit, fun h => absurd h hfne,
        fun h => absurd h hene⟩

/-- What is taken off the start of a number is a number. -/
lemma isNumber_spanNumber {cs : List Char} (h : startsNumber cs) : IsNumber (spanNumber cs).1 := by
  obtain ⟨sign, digits, fraction, exponent, heq, hs, hd, hf, he, hne, -⟩ := spanNumber_parts cs
  rw [heq]
  exact .parts hs hd hf he (hne h)

/-- A whole number has neither fraction nor exponent. -/
lemma isWhole_eq_nil {fraction exponent : List Char} (hf : IsFraction fraction) (he : IsExponent exponent)
    (h : isWhole (fraction ++ exponent)) : fraction = [] ∧ exponent = [] := by
  rw [isWhole_append, Bool.and_eq_true_iff] at h
  constructor
  · cases hf with
    | nil => rfl
    | digits => exact absurd h.1 (by simp [isWhole])
  · cases he with
    | nil => rfl
    | digits he => exact absurd h.2 (by simp [isWhole, he])

/-- Nothing continues a number behind the place where its reader stops. -/
lemma spanNumber_stops (cs : List Char) :
    beginsDigit (spanNumber cs).2 = false ∧
    (isWhole (spanNumber cs).1 → beginsFraction (spanNumber cs).2 = false) ∧
    (hasExponent (spanNumber cs).1 = false → beginsExponent (spanNumber cs).2 = false) := by
  obtain ⟨sign, digits, fraction, exponent, heq, hs, hd, hf, he, -, hdigit, hfraction, hexponent⟩ :=
    spanNumber_parts cs
  refine ⟨hdigit, fun hwhole => ?_, fun hnone => hexponent ?_⟩
  · rw [heq, isWhole_append, isWhole_append, Bool.and_eq_true_iff, Bool.and_eq_true_iff] at hwhole
    obtain ⟨hfnil, henil⟩ := isWhole_eq_nil hf he hwhole.2.2
    exact hfraction hfnil henil
  · cases he with
    | nil => rfl
    | digits he =>
      rw [heq] at hnone
      exact absurd hnone (by simp [hasExponent, he])

/-- A number keeps starting a text whatever is written behind it. -/
lemma startsNumber_of_isNumber {cs : List Char} (h : IsNumber cs) (behind : List Char) :
    startsNumber (cs ++ behind) := by
  obtain @⟨sign, digits, fraction, exponent, hs, hd, hf, -, hne⟩ := h
  have hbegins := begins_parts hd hf hne (exponent ++ behind)
  rw [startsNumber_iff, List.append_assoc, List.append_assoc, List.append_assoc, spanSign_run hs hbegins]
  exact hbegins

/-! ## Where identifiers begin -/

/-- Whether an identifier starts is told by the first two characters. -/
lemma startsIdent_cons (c : Char) (cs : List Char) : startsIdent (c :: cs) =
    if c = '-' then cs.head?.any fun d => isIdentStart d || d = '-' || d = '\\'
    else if c = '\\' then cs.head?.any nameEscape
    else isIdentStart c := by
  have hdash : isIdentStart '-' = false := by decide
  have hslash : isIdentStart '\\' = false := by decide
  by_cases hc : c = '-'
  · subst hc
    cases cs <;> simp [startsIdent, hdash]
  by_cases hc : c = '\\'
  · subst hc
    cases cs <;> simp [startsIdent, hslash]
  · unfold startsIdent
    split <;> simp_all

/-- Two characters tell whether an identifier begins. -/
lemma startsIdent_congr (c : Char) {cs ds : List Char} (h : cs.head? = ds.head?) :
    startsIdent (c :: cs) = startsIdent (c :: ds) := by
  rw [startsIdent_cons, startsIdent_cons, h]

/-- A character that starts an identifier differs from one that does not. -/
lemma ne_of_isIdentStart {c d : Char} (h : isIdentStart c) (hd : isIdentStart d = false) : c ≠ d := by
  rintro rfl
  rw [hd] at h
  cases h

/-- The first character alone starts an identifier if it is a letter or the like. -/
lemma startsIdent_of_isIdentStart {c : Char} (h : isIdentStart c) (cs : List Char) :
    startsIdent (c :: cs) := by
  rw [startsIdent_cons, if_neg (ne_of_isIdentStart h (by decide)), if_neg (ne_of_isIdentStart h (by decide)), h]

/-- An identifier begins where a letter does, a hyphen or an escape. -/
lemma head_of_startsIdent {c : Char} {cs : List Char} (h : startsIdent (c :: cs)) :
    isIdentStart c ∨ c = '-' ∨ c = '\\' := by
  rw [startsIdent_cons] at h
  split at h
  · next hc => exact .inr (.inl hc)
  · split at h
    · next hc => exact .inr (.inr hc)
    · exact .inl h

/-- No identifier starts with a digit. -/
lemma beginsDigit_of_startsIdent {cs : List Char} (h : startsIdent cs) : beginsDigit cs = false := by
  cases cs with
  | nil => rfl
  | cons c cs =>
    rw [beginsDigit_cons]
    obtain hc | rfl | rfl := head_of_startsIdent h
    · exact isDigit_of_isIdentStart hc
    · decide
    · decide

/-- No identifier starts with a decimal point. -/
lemma beginsFraction_of_startsIdent {cs : List Char} (h : startsIdent cs) : beginsFraction cs = false := by
  cases cs with
  | nil => rfl
  | cons c cs =>
    have hpoint : c ≠ '.' := by
      rintro rfl
      exact absurd (head_of_startsIdent h) (by decide)
    simp [beginsFraction_cons, hpoint]

/-- An exponent is also an identifier, so where none of these starts no exponent begins. -/
lemma beginsExponent_of_not_startsIdent {cs : List Char} (h : startsIdent cs = false) :
    beginsExponent cs = false := by
  cases cs with
  | nil => rfl
  | cons c cs =>
    have hletter : ¬isExponentLetter c := by
      intro hletter
      have hstart : isIdentStart c := by
        rw [isExponentLetter, Bool.or_eq_true, decide_eq_true_eq, decide_eq_true_eq] at hletter
        obtain rfl | rfl := hletter <;> decide
      rw [startsIdent_of_isIdentStart hstart] at h
      cases h
    simp [beginsExponent, hletter]

/-- No text begins with an identifier and with a number. -/
lemma startsNumber_of_startsIdent {cs : List Char} (h : startsIdent cs) : startsNumber cs = false := by
  cases cs with
  | nil => rfl
  | cons c cs =>
    rw [Bool.eq_false_iff]
    intro hnumber
    rw [startsNumber_iff] at hnumber
    by_cases hc : c = '-'
    · rw [startsIdent_cons, if_pos hc] at h
      simp only [spanSign, hc, or_true, if_true] at hnumber
      cases cs with
      | nil => exact absurd hnumber (by decide)
      | cons d ds =>
        have hd : isIdentStart d ∨ d = '-' ∨ d = '\\' := by simpa [or_assoc] using h
        obtain hd' := isDigit_or_eq_point hnumber
        obtain hd | rfl | rfl := hd
        · rw [isDigit_of_isIdentStart hd] at hd'
          obtain hd' | rfl := hd'
          · cases hd'
          · exact absurd hd (by decide)
        · exact absurd hd' (by decide)
        · exact absurd hd' (by decide)
    · have hplus : c ≠ '+' := by
        rintro rfl
        exact absurd (head_of_startsIdent h) (by decide)
      simp only [spanSign, hc, hplus, or_false, if_false] at hnumber
      rw [beginsDigit_of_startsIdent h, beginsFraction_of_startsIdent h] at hnumber
      exact absurd hnumber (by decide)

/-! ## Strings -/

/-- The text of a string is taken whole. -/
lemma spanString_escape {quote : Char} {value : List Char} (hquote : quote ≠ '\\') (hvalue : '\n' ∉ value)
    (behind : List Char) : spanString quote (Token.escape quote value ++ quote :: behind) =
      (Token.escape quote value ++ [quote], behind) := by
  induction value with
  | nil => simp [Token.escape, spanString.eq_def quote (quote :: behind)]
  | cons c value ih =>
    obtain ⟨hc, hvalue⟩ := not_or.1 (mt List.mem_cons.2 hvalue)
    rw [Token.escape]
    split
    · rw [List.cons_append, List.cons_append, spanString.eq_def]
      simp [hquote.symm, ih hvalue]
    · next hplain =>
      obtain ⟨hslash, hne⟩ := not_or.1 hplain
      rw [List.cons_append, spanString.eq_def]
      simp [hne, Ne.symm hc, hslash, ih hvalue]

/-- Escaping a value and taking the escapes out again gives it back. -/
lemma unescape_escape {quote : Char} {value : List Char} (hquote : quote ≠ '\\') (hvalue : '\n' ∉ value) :
    unescape quote (Token.escape quote value ++ [quote]) = value := by
  induction value with
  | nil => simp [Token.escape, unescape.eq_def quote [quote]]
  | cons c value ih =>
    obtain ⟨hc, hvalue⟩ := not_or.1 (mt List.mem_cons.2 hvalue)
    rw [Token.escape]
    split
    · rw [List.cons_append, List.cons_append, unescape.eq_def]
      simp [hquote.symm, Ne.symm hc, ih hvalue]
    · next hplain =>
      obtain ⟨hslash, hne⟩ := not_or.1 hplain
      rw [List.cons_append, unescape.eq_def]
      simp [hne, hslash, ih hvalue]

/-- A string stands for no newline. -/
lemma newline_not_mem_unescape (quote : Char) (cs : List Char) :
    '\n' ∉ unescape quote (spanString quote cs).1 := by
  fun_induction spanString quote cs with
  | case1 => exact List.not_mem_nil
  | case2 => simp [unescape]
  | case3 => exact List.not_mem_nil
  | case4 => simp [unescape]
  | case5 d ds taken rest heq hquote _ ih =>
    rw [heq] at ih
    rw [unescape.eq_def]
    by_cases hd : d = '\n'
    · simpa [hquote, hd] using ih
    · simpa [hquote, hd, Ne.symm hd] using ih
  | case6 c cs hquote hline hslash taken rest heq ih =>
    rw [heq] at ih
    rw [unescape.eq_def]
    simp [hquote, hslash, Ne.symm hline, ih]

/-! ## Addresses -/

/-- An address without a bare parenthesis is taken whole. -/
lemma spanUrl_run {cs : List Char} (h : EscapedRun (· ≠ ')') cs) (behind : List Char) :
    spanUrl (cs ++ ')' :: behind) = (cs, [')'], behind) := by
  induction h with
  | nil => rw [List.nil_append, spanUrl.eq_def]; simp
  | plain hc hne _ ih =>
    have hc := of_decide_eq_true hc
    rw [List.cons_append, spanUrl.eq_def]
    simp [hc, hne, ih]
  | escape _ ih =>
    rw [List.cons_append, List.cons_append, spanUrl.eq_def]
    simp [ih]

/-- The contents of a closed address end before an unescaped parenthesis. -/
lemma escapedRun_of_spanUrl {cs : List Char} (h : (spanUrl cs).2.1 ≠ []) :
    EscapedRun (· ≠ ')') (spanUrl cs).1 := by
  fun_induction spanUrl cs with
  | case1 => exact .nil
  | case2 => exact .nil
  | case3 => exact absurd rfl h
  | case4 d ds contents closing rest heq _ ih =>
    rw [heq] at ih
    exact .escape (ih h)
  | case5 c cs hclose hne contents closing rest heq ih =>
    rw [heq] at ih
    exact .plain (decide_eq_true hclose) hne (ih h)

/-- An address goes on to the end of the text when no parenthesis closes it. -/
lemma spanUrl_rest {cs : List Char} (h : (spanUrl cs).2.1 = []) : (spanUrl cs).2.2 = [] := by
  fun_induction spanUrl cs with
  | case1 => rfl
  | case2 => cases h
  | case3 => rfl
  | case4 d ds contents closing rest heq _ ih =>
    rw [heq] at ih
    exact ih h
  | case5 c cs _ _ contents closing rest heq ih =>
    rw [heq] at ih
    exact ih h

/-- An address that is read back by its trimmed contents has no bare parenthesis. -/
lemma escapedRun_of_trim_spanUrl {cs behind : List Char} (h : IsTrimmed cs)
    (hagain : trim (spanUrl (cs ++ ')' :: behind)).1 = cs) : EscapedRun (· ≠ ')') cs := by
  have happ := spanUrl_append (cs ++ ')' :: behind)
  have hrun (h : (spanUrl (cs ++ ')' :: behind)).2.1 ≠ []) := escapedRun_of_spanUrl h
  have hrest (h : (spanUrl (cs ++ ')' :: behind)).2.1 = []) := spanUrl_rest h
  generalize spanUrl (cs ++ ')' :: behind) = p at hagain happ hrun hrest
  obtain ⟨contents, closing, rest⟩ := p
  dsimp only at hagain happ hrun hrest
  -- no blank was taken in front of the contents, and none between them and the parenthesis
  obtain ⟨front, back, heq, hfront, hback⟩ := exists_trim_append contents
  rw [hagain] at heq
  have hparen : BeginsNonblank (')' :: behind) := by
    rintro c ⟨⟩
    decide
  have hbegins : BeginsNonblank (cs ++ ')' :: behind) := by
    cases cs with
    | nil => exact hparen
    | cons c cs => exact h.1.append (List.cons_ne_nil c cs) _
  subst heq
  obtain rfl := eq_nil_of_blank hfront hbegins (by simpa using happ)
  obtain rfl := eq_nil_of_blank hback hparen (by simpa using happ)
  simp only [List.nil_append, List.append_nil] at happ hrun
  refine hrun fun hnil => ?_
  rw [hnil, hrest hnil] at happ
  simp at happ

end ScssExtend.Lexer
