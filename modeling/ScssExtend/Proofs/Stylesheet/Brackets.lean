import ScssExtend.Proofs.Stylesheet.Preludes

/-!
# Brackets in the texts of a stylesheet

A prelude goes on as long as brackets are open (`Prelude.depthBehind?`): one whose brackets are all closed is taken
whole in front of a brace or a semicolon (`Prelude.spanPrelude_run`), and inside of a bracket that nothing closes no
block is ever seen (`Prelude.NeverOpens`). Tokens that are no brackets, braces or semicolons make no difference
(`Prelude.depthBehind?_brackets`).
-/

namespace ScssExtend.Prelude

/-- The number of open brackets and parentheses behind the tokens. There is none when a prelude does not go that far:
when a brace or a semicolon stands outside of all of them, or the end of the input is among the tokens. -/
def depthBehind? (depth : Nat) : List Token → Option Nat
  | [] => some depth
  | t :: ts => if isStop t && depth == 0 || t == .eof then none else depthBehind? (depthAfter depth t) ts

/-- The tokens make up a whole prelude inside `depth` brackets and parentheses: all of these are closed, and neither
braces nor semicolons stand outside of others. -/
def isPrelude (depth : Nat) (ts : List Token) : Bool :=
  depthBehind? depth ts == some 0

/-- A prelude is what leaves no bracket open. -/
lemma isPrelude_iff {depth : Nat} {ts : List Token} : isPrelude depth ts ↔ depthBehind? depth ts = some 0 :=
  beq_iff_eq

/-- Behind the first tokens the others go on from the depth that these leave. -/
lemma depthBehind?_append {depth d : Nat} {ts : List Token} (h : depthBehind? depth ts = some d) (us : List Token) :
    depthBehind? depth (ts ++ us) = depthBehind? d us := by
  induction ts generalizing depth with
  | nil =>
    cases h
    rfl
  | cons t ts ih =>
    rw [depthBehind?] at h
    split at h
    · cases h
    · next hstop => rw [List.cons_append, depthBehind?, if_neg hstop, ih h]

/-- Behind a prelude another one may be joined to it. -/
lemma isPrelude_append {ts us : List Token} (hts : isPrelude 0 ts) : isPrelude 0 (ts ++ us) = isPrelude 0 us := by
  rw [isPrelude, depthBehind?_append (isPrelude_iff.1 hts), isPrelude]

/-- The end of the input is in no prelude. -/
lemma eof_not_mem_of_depthBehind? {depth d : Nat} {ts : List Token} (h : depthBehind? depth ts = some d) :
    .eof ∉ ts := by
  induction ts generalizing depth with
  | nil => exact List.not_mem_nil
  | cons t ts ih =>
    rw [depthBehind?] at h
    split at h
    · cases h
    · next hstop =>
      rw [List.mem_cons, not_or]
      refine ⟨?_, ih h⟩
      rintro rfl
      exact hstop (by simp)

/-- A whole prelude ends before the end of the input. -/
lemma eof_not_mem_of_isPrelude {depth : Nat} {ts : List Token} (h : isPrelude depth ts) : .eof ∉ ts :=
  eof_not_mem_of_depthBehind? (isPrelude_iff.1 h)

/-! ## Reading whole preludes -/

/-- A prelude goes on behind tokens that it holds. -/
lemma spanPrelude_through {depth d : Nat} {us : List PlacedToken}
    (h : depthBehind? depth (us.map PlacedToken.token) = some d) (ts : List PlacedToken) :
    spanPrelude depth (us ++ ts) = (us.map PlacedToken.token ++ (spanPrelude d ts).1, (spanPrelude d ts).2) := by
  induction us generalizing depth with
  | nil =>
    cases h
    rfl
  | cons u us ih =>
    rw [List.map_cons, depthBehind?] at h
    split at h
    · cases h
    · next hstop =>
      rw [List.cons_append, spanPrelude, if_neg hstop, ih h]
      rfl

/-- A prelude whose brackets are closed is taken whole. -/
lemma spanPrelude_run {depth : Nat} {us : List PlacedToken} (h : isPrelude depth (us.map PlacedToken.token))
    (mark : PlacedToken) (hmark : isStop mark.token) (rest : List PlacedToken) :
    spanPrelude depth (us ++ mark :: rest) = (us.map PlacedToken.token, mark :: rest) := by
  rw [spanPrelude_through (isPrelude_iff.1 h)]
  simp [spanPrelude, hmark]

/-- Whether a block follows is decided behind the tokens that a prelude holds. -/
lemma startsBlock_through {depth d : Nat} {us : List PlacedToken}
    (h : depthBehind? depth (us.map PlacedToken.token) = some d) (ts : List PlacedToken) :
    startsBlock depth (us ++ ts) = startsBlock d ts := by
  induction us generalizing depth with
  | nil =>
    cases h
    rfl
  | cons u us ih =>
    rw [List.map_cons, depthBehind?] at h
    split at h
    · cases h
    · next hstop =>
      have hopen : ¬(u.token = .leftBrace ∧ depth = 0) := by
        rintro ⟨hu, rfl⟩
        rw [hu] at hstop
        exact hstop rfl
      rw [List.cons_append, startsBlock, if_neg hopen, if_neg hstop, ih h]

/-- Behind a prelude whose brackets are closed, the brace or semicolon tells whether a block follows. -/
lemma startsBlock_run {depth : Nat} {us : List PlacedToken} (h : isPrelude depth (us.map PlacedToken.token))
    (mark : PlacedToken) (hmark : isStop mark.token) (rest : List PlacedToken) :
    startsBlock depth (us ++ mark :: rest) = decide (mark.token = .leftBrace) := by
  rw [startsBlock_through (isPrelude_iff.1 h)]
  by_cases hbrace : mark.token = .leftBrace <;> simp [startsBlock, hmark, hbrace]

/-! ## Neutral tokens -/

/-- True of the tokens that close a bracket or a parenthesis. -/
def isClosing : Token → Bool
  | .rightParen | .rightBracket => true
  | _ => false

/-- True of tokens that have nothing to do with brackets and blocks. -/
def isNeutral : Token → Bool
  | .function _ | .leftParen | .leftBracket | .rightParen | .rightBracket => false
  | .leftBrace | .rightBrace | .semicolon | .eof => false
  | _ => true

/-- The tokens that have something to do with brackets and blocks. -/
def brackets (ts : List Token) : List Token :=
  ts.filter fun t => !isNeutral t

/-- No tokens have no brackets. -/
@[simp] lemma brackets_nil : brackets [] = [] := rfl

/-- The brackets of two runs stand one behind the other. -/
@[simp] lemma brackets_append (ts us : List Token) : brackets (ts ++ us) = brackets ts ++ brackets us :=
  List.filter_append ts us

/-- A neutral token adds no bracket. -/
lemma brackets_cons {t : Token} (h : isNeutral t) (ts : List Token) : brackets (t :: ts) = brackets ts := by
  simp [brackets, h]

/-- Neutral tokens have no brackets. -/
lemma brackets_of_isNeutral {ts : List Token} (h : ∀ t ∈ ts, isNeutral t) : brackets ts = [] :=
  List.filter_eq_nil_iff.2 fun t ht => by simp [h t ht]

/-- A neutral token neither ends a prelude nor changes the depth. -/
lemma isNeutral_cases {t : Token} (h : isNeutral t) :
    isStop t = false ∧ t ≠ .eof ∧ isClosing t = false ∧ ∀ depth, depthAfter depth t = depth := by
  cases t <;> simp_all [isNeutral, isStop, isClosing, depthAfter]

/-- The depth depends on the brackets, braces and semicolons alone. -/
lemma depthBehind?_brackets (depth : Nat) (ts : List Token) :
    depthBehind? depth (brackets ts) = depthBehind? depth ts := by
  induction ts generalizing depth with
  | nil => rfl
  | cons t ts ih =>
    by_cases ht : isNeutral t
    · obtain ⟨hstop, heof, -, hdepth⟩ := isNeutral_cases ht
      rw [brackets_cons ht, ih, depthBehind?, hdepth]
      simp [hstop, heof]
    · have hcons : brackets (t :: ts) = t :: brackets ts := by simp [brackets, ht]
      rw [hcons, depthBehind?, depthBehind?, ih]

/-- The depth behind tokens is told by their brackets. -/
lemma depthBehind?_congr {ts us : List Token} (h : brackets ts = brackets us) (depth : Nat) :
    depthBehind? depth ts = depthBehind? depth us := by
  rw [← depthBehind?_brackets, h, depthBehind?_brackets]

/-- Whether tokens are a prelude is told by their brackets. -/
lemma isPrelude_congr {ts us : List Token} (h : brackets ts = brackets us) : isPrelude 0 ts = isPrelude 0 us := by
  rw [isPrelude, depthBehind?_congr h, isPrelude]

/-- Leading space has no brackets. -/
lemma brackets_lead (ts : List Token) : brackets (lead ts) = brackets ts := by
  induction ts with
  | nil => rfl
  | cons t ts ih =>
    by_cases ht : t = .whitespace
    · subst ht
      rw [brackets_cons rfl]
      simpa [lead] using ih
    · simp [lead, ht]

/-- Padding adds no brackets. -/
lemma Pads.brackets_eq {us vs : List Token} (h : Pads us vs) : brackets vs = brackets us := by
  induction h with
  | refl => rfl
  | front _ ih => rw [brackets_cons rfl, ih]
  | behind _ ih =>
    rw [brackets_append, ih]
    exact List.append_nil _

/-! ## Brackets that are closed -/

/-- None of the tokens closes a bracket that was open before them, when `depth` more are open. -/
def closesNothing (depth : Nat) : List Token → Bool
  | [] => true
  | t :: ts => !(isClosing t && depth == 0) && closesNothing (depthAfter depth t) ts

/-- Whether tokens close a bracket from before them is told by their brackets. -/
lemma closesNothing_brackets (depth : Nat) (ts : List Token) :
    closesNothing depth (brackets ts) = closesNothing depth ts := by
  induction ts generalizing depth with
  | nil => rfl
  | cons t ts ih =>
    by_cases ht : isNeutral t
    · obtain ⟨-, -, hclosing, hdepth⟩ := isNeutral_cases ht
      rw [brackets_cons ht, ih, closesNothing, hdepth, hclosing]
      rfl
    · have hcons : brackets (t :: ts) = t :: brackets ts := by simp [brackets, ht]
      rw [hcons, closesNothing, closesNothing, ih]

/-- Tokens with the same brackets close the same ones. -/
lemma closesNothing_congr {ts us : List Token} (h : brackets ts = brackets us) (depth : Nat) :
    closesNothing depth ts = closesNothing depth us := by
  rw [← closesNothing_brackets, h, closesNothing_brackets]

/-- One more open bracket is left open by a token that closes none of those before it. -/
lemma depthAfter_add {depth : Nat} {t : Token} (h : (isClosing t && depth == 0) = false) (d : Nat) :
    depthAfter (depth + d) t = depthAfter depth t + d := by
  cases t <;> simp_all [depthAfter, isClosing] <;> omega

/-- Inside of more brackets the tokens leave as many more open. -/
lemma depthBehind?_add {depth e : Nat} {ts : List Token} (h : depthBehind? depth ts = some e)
    (hcloses : closesNothing depth ts) (d : Nat) : depthBehind? (depth + d) ts = some (e + d) := by
  induction ts generalizing depth with
  | nil =>
    cases h
    rfl
  | cons t ts ih =>
    rw [closesNothing, Bool.and_eq_true, Bool.not_eq_true'] at hcloses
    rw [depthBehind?] at h
    split at h
    · cases h
    · next hstop =>
      have hstop' : ¬(isStop t && depth + d == 0 || t == .eof) := by
        intro hstop'
        apply hstop
        simp only [Bool.or_eq_true, Bool.and_eq_true, beq_iff_eq, Nat.add_eq_zero_iff] at hstop' ⊢
        exact hstop'.imp_left fun hstop' => ⟨hstop'.1, hstop'.2.1⟩
      rw [depthBehind?, if_neg hstop', depthAfter_add hcloses.1]
      exact ih h hcloses.2

/-- What closes no bracket from before it does not do so inside of more brackets. -/
lemma closesNothing_add {depth : Nat} {ts : List Token} (h : closesNothing depth ts) (d : Nat) :
    closesNothing (depth + d) ts := by
  induction ts generalizing depth with
  | nil => rfl
  | cons t ts ih =>
    rw [closesNothing, Bool.and_eq_true, Bool.not_eq_true'] at h
    have hclosing : (isClosing t && depth + d == 0) = false := by
      have hnot := h.1
      simp only [Bool.and_eq_false_imp, beq_eq_false_iff_ne] at hnot ⊢
      exact fun ht => by have := hnot ht; omega
    rw [closesNothing, hclosing, depthAfter_add h.1]
    exact ih h.2

/-- Tokens close nothing from before them if the second ones do not close more than the first ones left open. -/
lemma closesNothing_append {depth d : Nat} {ts : List Token} (h : depthBehind? depth ts = some d) (us : List Token) :
    closesNothing depth (ts ++ us) = (closesNothing depth ts && closesNothing d us) := by
  induction ts generalizing depth with
  | nil =>
    cases h
    rfl
  | cons t ts ih =>
    rw [depthBehind?] at h
    split at h
    · cases h
    · rw [List.cons_append, closesNothing, closesNothing, ih h, Bool.and_assoc]

/-- All brackets are closed. If brackets from before the tokens may be open, none of these is closed. -/
def ClosesBrackets (opens : Bool) (us : List Token) : Prop :=
  isPrelude 0 us ∧ (opens → closesNothing 0 us)

/-- Neutral tokens close all their brackets, as they have none. -/
lemma closesBrackets_of_isNeutral {us : List Token} (h : ∀ u ∈ us, isNeutral u) (opens : Bool) :
    ClosesBrackets opens us := by
  have hnone : brackets us = brackets [] := brackets_of_isNeutral h
  exact ⟨isPrelude_congr hnone, fun _ => closesNothing_congr hnone 0⟩

section ClosesBrackets

variable {us vs : List Token} (hus : ClosesBrackets true us)
include hus

/-- Tokens that close nothing from before them close their brackets in either sense. -/
lemma ClosesBrackets.mono (opens : Bool) : ClosesBrackets opens us :=
  ⟨hus.1, fun _ => hus.2 rfl⟩

/-- Closed tokens may be written one behind the other. -/
lemma ClosesBrackets.append (hvs : ClosesBrackets true vs) : ClosesBrackets true (us ++ vs) := by
  have hdepth := isPrelude_iff.1 hus.1
  refine ⟨?_, fun _ => ?_⟩
  · rw [isPrelude_append hus.1]
    exact hvs.1
  · rw [closesNothing_append hdepth, hus.2 rfl, hvs.2 rfl]
    rfl

/-- A bracket and the one that closes it may be written around the tokens. -/
lemma ClosesBrackets.between {bracket closing : Token}
    (hbracket : bracket = .leftBracket ∨ ∃ name, bracket = .function name)
    (hclosing : closing = .rightBracket ∨ closing = .rightParen) :
    ClosesBrackets true (bracket :: (us ++ [closing])) := by
  have hdepth := depthBehind?_add (isPrelude_iff.1 hus.1) (hus.2 rfl) 1
  have hcloses := closesNothing_add (hus.2 rfl) 1
  rw [Nat.zero_add] at hdepth hcloses
  have hbehind : isPrelude 1 (us ++ [closing]) ∧ closesNothing 1 (us ++ [closing]) := by
    rw [isPrelude, depthBehind?_append hdepth, closesNothing_append hdepth, hcloses]
    obtain rfl | rfl := hclosing <;> decide
  obtain rfl | ⟨name, rfl⟩ := hbracket <;> exact ⟨hbehind.1, fun _ => hbehind.2⟩

end ClosesBrackets

/-! ## Brackets that stay open -/

/-- A bracket that is open before the tokens is open behind them, if they do not close it. -/
lemma exists_depthBehind? {depth : Nat} {ts : List Token} (h : closesNothing depth ts) (heof : .eof ∉ ts) (d : Nat) :
    ∃ e, depthBehind? (depth + (d + 1)) ts = some (e + 1) := by
  induction ts generalizing depth with
  | nil => exact ⟨depth + d, rfl⟩
  | cons t ts ih =>
    rw [closesNothing, Bool.and_eq_true, Bool.not_eq_true'] at h
    obtain ⟨ht, hts⟩ := not_or.1 (mt List.mem_cons.2 heof)
    have hstop : ¬(isStop t && depth + (d + 1) == 0 || t == .eof) := by simp [Ne.symm ht]
    rw [depthBehind?, if_neg hstop, depthAfter_add h.1]
    exact ih h.2 hts

/-- Inside of a bracket a stream with these tokens does not open a block. -/
def NeverOpens (us : List Token) : Prop :=
  ∀ ts : List PlacedToken, ts.map PlacedToken.token = us → ∀ depth, startsBlock (depth + 1) ts = false

/-- At the end of the input no block opens. -/
lemma neverOpens_eof (us : List Token) : NeverOpens (.eof :: us) := by
  intro ts hts depth
  obtain ⟨t, ts, rfl, ht, -⟩ := List.map_eq_cons_iff.1 hts
  simp [startsBlock, ht]

/-- Tokens that close no bracket from before them keep those behind them inside of it. -/
lemma NeverOpens.append {us vs : List Token} (hvs : NeverOpens vs) (h : closesNothing 0 us) (heof : .eof ∉ us) :
    NeverOpens (us ++ vs) := by
  intro ts hts depth
  obtain ⟨us', vs', rfl, rfl, hvs'⟩ := List.map_eq_append_iff.1 hts
  obtain ⟨e, he⟩ := exists_depthBehind? h heof depth
  rw [Nat.zero_add] at he
  rw [startsBlock_through he]
  exact hvs vs' hvs' e

/-- A token that closes nothing keeps those behind it inside of the bracket. -/
lemma NeverOpens.cons {t : Token} {us : List Token} (hus : NeverOpens us) (ht : isClosing t = false) (heof : t ≠ .eof) :
    NeverOpens (t :: us) := by
  have hcloses : closesNothing 0 [t] := by simp [closesNothing, ht]
  exact hus.append hcloses (by simpa using heof.symm)

/-- Leading space makes no difference to a block that never opens. -/
lemma neverOpens_lead {us : List Token} : NeverOpens (lead us) ↔ NeverOpens us := by
  induction us with
  | nil => exact Iff.rfl
  | cons u us ih =>
    by_cases hu : u = .whitespace
    · subst hu
      have hspace : NeverOpens (.whitespace :: us) ↔ NeverOpens us := by
        refine ⟨fun h ts hts depth => ?_, fun h => h.cons rfl (by simp)⟩
        have hfront := h (⟨.whitespace, .start⟩ :: ts) (congrArg _ hts) depth
        simpa [startsBlock, isStop, depthAfter] using hfront
      rw [hspace, ← ih]
      simp [lead]
    · simp [lead, hu]

end ScssExtend.Prelude
