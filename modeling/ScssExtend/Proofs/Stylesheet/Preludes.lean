import Mathlib.Data.List.DropRight
import Mathlib.Data.List.Infix
import Mathlib.Tactic.Lemma
import ScssExtend.Proofs.Token.Reading
import ScssExtend.Stylesheet.Parser

/-!
# What the readers of a stylesheet take off its tokens

The tokens that a reader takes and those that it leaves make up the stream again, and what is taken never holds the
end of the input (`Prelude.spanPrelude_append`, `Parser.readPropertyName_append`). White space at the ends of a prelude
shows neither in its text nor in its flag (`Prelude.Pads.serialize_eq`, `Prelude.stripFlag_space`).
-/

namespace ScssExtend

namespace Prelude

/-- A prelude consists of the first tokens, and the end of the input is none of them. -/
lemma spanPrelude_append (depth : Nat) (ts : List PlacedToken) : ∃ us, us ++ (spanPrelude depth ts).2 = ts ∧
    us.map PlacedToken.token = (spanPrelude depth ts).1 ∧ ∀ u ∈ us, u.token ≠ .eof := by
  fun_induction spanPrelude depth ts with
  | case1 => exact ⟨[], rfl, rfl, List.forall_mem_nil _⟩
  | case2 => exact ⟨[], rfl, rfl, List.forall_mem_nil _⟩
  | case3 depth t ts hstop taken rest heq ih =>
    rw [heq] at ih
    obtain ⟨us, happ, hmap, hne⟩ := ih
    refine ⟨t :: us, by rw [List.cons_append, happ], by rw [List.map_cons, hmap], ?_⟩
    refine List.forall_mem_cons.2 ⟨fun heof => hstop ?_, hne⟩
    simp [heof]

/-- Trailing space is dropped from the end only. -/
lemma dropTrailingSpace_isPrefix (ts : List Token) : dropTrailingSpace ts <+: ts :=
  List.rdropWhile_prefix _ ts

/-- What is left without a flag are the first tokens. -/
lemma stripFlag_isPrefix (flag : String) (ts : List Token) : (stripFlag flag ts).1 <+: ts := by
  have hspace := dropTrailingSpace_isPrefix ts
  unfold stripFlag
  dsimp only
  split
  · split
    · refine List.IsPrefix.trans ?_ hspace
      exact (dropTrailingSpace_isPrefix _).trans ((List.dropLast_prefix _).trans
        ((dropTrailingSpace_isPrefix _).trans (List.dropLast_prefix _)))
    · exact hspace
  · exact hspace

/-! ## White space at the ends -/

/-- The tokens without the white space at their beginning. -/
def lead (ts : List Token) : List Token :=
  ts.dropWhile (· == .whitespace)

/-- The tokens without the white space at their ends. -/
def core (ts : List Token) : List Token :=
  dropTrailingSpace (lead ts)

/-- The second sequence of tokens is the first one with white space added at its ends. -/
inductive Pads (us : List Token) : List Token → Prop where
  | refl : Pads us us
  | front {vs} : Pads us vs → Pads us (.whitespace :: vs)
  | behind {vs} : Pads us vs → Pads us (vs ++ [.whitespace])

/-- Padding adds nothing but white space. -/
lemma Pads.mem {us vs : List Token} (h : Pads us vs) {t : Token} (ht : t ∈ vs) : t ∈ us ∨ t = .whitespace := by
  induction h with
  | refl => exact .inl ht
  | front _ ih => exact (List.mem_cons.1 ht).elim .inr ih
  | behind _ ih => exact (List.mem_append.1 ht).elim ih fun ht => .inr (List.mem_singleton.1 ht)

/-- Nothing is dropped from behind a token other than white space. -/
lemma dropTrailingSpace_concat {t : Token} (ht : t ≠ .whitespace) (ts : List Token) :
    dropTrailingSpace (ts ++ [t]) = ts ++ [t] :=
  List.rdropWhile_concat_neg _ _ _ (by simpa using ht)

/-- Trailing space is dropped one by one. -/
lemma dropTrailingSpace_concat_space (ts : List Token) :
    dropTrailingSpace (ts ++ [.whitespace]) = dropTrailingSpace ts :=
  List.rdropWhile_concat_pos _ _ _ (by decide)

/-- What is taken off the beginning is white space and nothing else. -/
lemma exists_lead (ts : List Token) : ∃ n, ts = List.replicate n .whitespace ++ lead ts := by
  induction ts with
  | nil => exact ⟨0, rfl⟩
  | cons t ts ih =>
    by_cases ht : t = .whitespace
    · obtain ⟨n, hn⟩ := ih
      subst ht
      exact ⟨n + 1, congrArg _ hn⟩
    · exact ⟨0, by simp [lead, ht]⟩

/-- What is dropped at the end is white space and nothing else. -/
lemma exists_dropTrailingSpace (ts : List Token) :
    ∃ n, ts = dropTrailingSpace ts ++ List.replicate n .whitespace := by
  induction ts using List.reverseRecOn with
  | nil => exact ⟨0, rfl⟩
  | append_singleton ts t ih =>
    by_cases ht : t = .whitespace
    · obtain ⟨n, hn⟩ := ih
      subst ht
      refine ⟨n + 1, ?_⟩
      rw [dropTrailingSpace_concat_space, List.replicate_succ', ← List.append_assoc, ← hn]
    · exact ⟨0, by rw [dropTrailingSpace_concat ht, List.replicate_zero, List.append_nil]⟩

/-- Tokens are those without white space at the ends, and some white space at the ends. -/
lemma exists_core (ts : List Token) : ∃ m n,
    ts = List.replicate m .whitespace ++ (core ts ++ List.replicate n .whitespace) := by
  obtain ⟨m, hm⟩ := exists_lead ts
  obtain ⟨n, hn⟩ := exists_dropTrailingSpace (lead ts)
  refine ⟨m, n, ?_⟩
  rw [core, ← hn]
  exact hm

/-- White space on both sides is padding. -/
lemma pads_replicate (us : List Token) (m n : Nat) :
    Pads us (List.replicate m .whitespace ++ (us ++ List.replicate n .whitespace)) := by
  induction m with
  | zero =>
    induction n with
    | zero => simpa using Pads.refl
    | succ n ih =>
      rw [List.replicate_succ', ← List.append_assoc us, ← List.append_assoc]
      exact ih.behind
  | succ m ih => exact ih.front

/-- The tokens of a prelude pad its core. -/
lemma pads_core (ts : List Token) : Pads (core ts) ts := by
  obtain ⟨m, n, h⟩ := exists_core ts
  have hpads := pads_replicate (core ts) m n
  rwa [← h] at hpads

/-- Dropping trailing space does not reach over a token other than white space. -/
lemma dropTrailingSpace_append_cons {t : Token} (ht : t ≠ .whitespace) (us vs : List Token) :
    dropTrailingSpace (us ++ t :: vs) = us ++ t :: dropTrailingSpace vs := by
  induction vs using List.reverseRecOn with
  | nil => exact dropTrailingSpace_concat ht us
  | append_singleton vs v ih =>
    rw [← List.cons_append, ← List.append_assoc]
    by_cases hv : v = .whitespace
    · rw [hv, dropTrailingSpace_concat_space, dropTrailingSpace_concat_space, ih]
    · rw [dropTrailingSpace_concat hv, dropTrailingSpace_concat hv]
      simp

/-- White space alone is dropped altogether. -/
lemma dropTrailingSpace_replicate (n : Nat) : dropTrailingSpace (List.replicate n .whitespace) = [] := by
  induction n with
  | zero => rfl
  | succ n ih => rw [List.replicate_succ', dropTrailingSpace_concat_space, ih]

/-- White space at the beginning stays if anything follows it. -/
lemma exists_dropTrailingSpace_core (ts : List Token) :
    ∃ n, dropTrailingSpace ts = List.replicate n .whitespace ++ core ts ∧ (core ts = [] → n = 0) := by
  obtain ⟨n, hn⟩ := exists_lead ts
  cases hlead : lead ts with
  | nil =>
    rw [hlead, List.append_nil] at hn
    refine ⟨0, ?_, fun _ => rfl⟩
    rw [core, hlead, hn, dropTrailingSpace_replicate]
    rfl
  | cons t us =>
    have ht : t ≠ .whitespace := by
      have hnot := List.head?_dropWhile_not (· == Token.whitespace) ts
      rw [← lead, hlead] at hnot
      simpa using hnot
    have hcons := dropTrailingSpace_append_cons ht [] us
    rw [List.nil_append, List.nil_append] at hcons
    refine ⟨n, ?_, ?_⟩
    · rw [core, hlead, hcons]
      conv => lhs; rw [hn, hlead]
      exact dropTrailingSpace_append_cons ht _ us
    · rw [core, hlead, hcons]
      exact nofun

/-- No white space is left at the end. -/
lemma getLast?_dropTrailingSpace (ts : List Token) : (dropTrailingSpace ts).getLast? ≠ some .whitespace := by
  induction ts using List.reverseRecOn with
  | nil => exact nofun
  | append_singleton ts t ih =>
    by_cases ht : t = .whitespace
    · rwa [ht, dropTrailingSpace_concat_space]
    · rw [dropTrailingSpace_concat ht, List.getLast?_concat]
      simpa using ht

/-- No white space is left at the beginning of a core. -/
lemma head?_core (ts : List Token) : (core ts).head? ≠ some .whitespace := by
  intro hhead
  obtain ⟨us, hus⟩ := List.head?_eq_some_iff.1 hhead
  obtain ⟨vs, hvs⟩ := dropTrailingSpace_isPrefix (lead ts)
  have hlead : (lead ts).head? = some .whitespace := by
    rw [← hvs, ← core, hus]
    rfl
  have hnot := List.head?_dropWhile_not (· == Token.whitespace) ts
  rw [← lead, hlead] at hnot
  exact absurd hnot (by decide)

/-! ## The text of a prelude -/

/-- A prelude is displayed as the trimmed text of its tokens. -/
lemma toList_serialize (ts : List Token) : (serialize ts).toList = Text.trim (Token.concatText ts).toList :=
  String.toList_ofList

/-- The texts of two runs of tokens are written one behind the other. -/
lemma toList_concatText_append (ts us : List Token) : (Token.concatText (ts ++ us)).toList =
    (Token.concatText ts).toList ++ (Token.concatText us).toList := by
  simp [Token.concatText]

/-- Leading space is not displayed. -/
lemma serialize_space (ts : List Token) : serialize (.whitespace :: ts) = serialize ts := by
  have htext : (Token.concatText (.whitespace :: ts)).toList = ' ' :: (Token.concatText ts).toList :=
    Lexer.toList_concatText_cons .whitespace ts
  rw [← String.toList_inj, toList_serialize, toList_serialize, htext, Text.trim_cons_blank _ (by decide)]

/-- Trailing space is not displayed. -/
lemma serialize_concat_space (ts : List Token) : serialize (ts ++ [.whitespace]) = serialize ts := by
  have htext : (Token.concatText [.whitespace]).toList = [' '] := rfl
  rw [← String.toList_inj, toList_serialize, toList_serialize, toList_concatText_append, htext,
    Text.trim_concat_blank _ (by decide)]

/-- White space at the ends of a prelude does not show in its text. -/
lemma Pads.serialize_eq {us vs : List Token} (h : Pads us vs) : serialize vs = serialize us := by
  induction h with
  | refl => rfl
  | front _ ih => rw [serialize_space, ih]
  | behind _ ih => rw [serialize_concat_space, ih]

/-- Dropping the leading space does not change what is displayed. -/
lemma serialize_lead (ts : List Token) : serialize (lead ts) = serialize ts := by
  obtain ⟨m, hm⟩ := exists_lead ts
  have hpads := pads_replicate (lead ts) m 0
  rw [List.replicate_zero, List.append_nil, ← hm] at hpads
  exact hpads.serialize_eq.symm

/-- Dropping the trailing space does not change what is displayed. -/
lemma serialize_dropTrailingSpace (ts : List Token) : serialize (dropTrailingSpace ts) = serialize ts := by
  obtain ⟨n, hn⟩ := exists_dropTrailingSpace ts
  have hpads := pads_replicate (dropTrailingSpace ts) 0 n
  rw [List.replicate_zero, List.nil_append, ← hn] at hpads
  exact hpads.serialize_eq.symm

/-! ## Flags -/

/-- A flag at the end is taken off. -/
lemma stripFlag_append {flag name : String} (h : Text.sameLetters name flag) (ts : List Token) :
    stripFlag flag (ts ++ [.delim '!', .ident name]) = (dropTrailingSpace ts, true) := by
  have hall : ts ++ [.delim '!', .ident name] = ts ++ [.delim '!'] ++ [.ident name] := by simp
  rw [hall, stripFlag, dropTrailingSpace_concat (by simp)]
  simp only [List.getLast?_concat, List.dropLast_concat]
  rw [dropTrailingSpace_concat (by simp)]
  simp [h]

/-- Where no flag is found only the trailing space is taken off. -/
lemma stripFlag_of_false {flag : String} {ts : List Token} (h : (stripFlag flag ts).2 = false) :
    (stripFlag flag ts).1 = dropTrailingSpace ts := by
  unfold stripFlag at h ⊢
  dsimp only at h ⊢
  split
  · next heq =>
    rw [heq] at h
    split
    · next hflag =>
      dsimp only at h
      rw [if_pos hflag] at h
      cases h
    · rfl
  · rfl

/-- A flag that is there stands at the end, with white space at most inside of it and behind it. -/
lemma exists_of_stripFlag {flag : String} {ts : List Token} (h : (stripFlag flag ts).2) : ∃ front n name,
    dropTrailingSpace ts = front ++ .delim '!' :: (List.replicate n .whitespace ++ [.ident name]) ∧
      (stripFlag flag ts).1 = dropTrailingSpace front := by
  unfold stripFlag at h ⊢
  dsimp only at h ⊢
  split
  · next name hlast =>
    rw [hlast] at h
    dsimp only at h
    split
    · next hflag =>
      rw [Bool.and_eq_true, beq_iff_eq] at hflag
      obtain ⟨ds, hds⟩ := List.getLast?_eq_some_iff.1 hlast
      obtain ⟨n, hn⟩ := exists_dropTrailingSpace ds
      rw [hds, List.dropLast_concat] at hflag ⊢
      obtain ⟨front, hfront⟩ := List.getLast?_eq_some_iff.1 hflag.2
      refine ⟨front, n, name, ?_, ?_⟩
      · rw [hn, hfront]
        simp
      · rw [hfront, List.dropLast_concat]
    · next hflag =>
      rw [if_neg hflag] at h
      cases h
  · next hno =>
    split at h
    · next name hlast => exact absurd hlast (hno name)
    · cases h

/-- Leading space is dropped with the trailing one if nothing else is there. -/
lemma dropTrailingSpace_space (ts : List Token) : dropTrailingSpace (.whitespace :: ts) =
    if dropTrailingSpace ts = [] then [] else .whitespace :: dropTrailingSpace ts := by
  simp only [dropTrailingSpace, Text.dropEndWhile, List.reverse_cons, List.dropWhile_append, List.reverse_eq_nil_iff,
    List.isEmpty_iff]
  split <;> simp

/-- Leading space makes no difference to the last token that is left. -/
lemma getLast?_dropTrailingSpace_space (ts : List Token) :
    (dropTrailingSpace (.whitespace :: ts)).getLast? = (dropTrailingSpace ts).getLast? := by
  rw [dropTrailingSpace_space]
  split
  · next hempty => rw [hempty]
  · next hne => rw [List.getLast?_cons_of_ne_nil hne]

/-- Trailing space makes no difference to the flag. -/
lemma stripFlag_concat_space (flag : String) (ts : List Token) :
    stripFlag flag (ts ++ [.whitespace]) = stripFlag flag ts := by
  simp only [stripFlag, dropTrailingSpace_concat_space]

/-- White space in front of the tokens makes no difference to the flag at their end. -/
lemma stripFlag_space (flag : String) (ts : List Token) :
    (stripFlag flag (.whitespace :: ts)).2 = (stripFlag flag ts).2 := by
  have hlast := getLast?_dropTrailingSpace_space ts
  unfold stripFlag
  dsimp only
  rw [hlast]
  split
  · next hident =>
    have hne : dropTrailingSpace ts ≠ [] := by
      intro hempty
      rw [hempty] at hident
      cases hident
    have hfront : (dropTrailingSpace (.whitespace :: ts)).dropLast =
        .whitespace :: (dropTrailingSpace ts).dropLast := by
      rw [dropTrailingSpace_space, if_neg hne, List.dropLast_cons_of_ne_nil hne]
    rw [hfront, getLast?_dropTrailingSpace_space]
    split <;> rfl
  · rfl

/-- Padding makes no difference to the flag. -/
lemma Pads.stripFlag_eq {us vs : List Token} (h : Pads us vs) (flag : String) :
    (stripFlag flag vs).2 = (stripFlag flag us).2 := by
  induction h with
  | refl => rfl
  | front _ ih => rw [stripFlag_space, ih]
  | behind _ ih => rw [stripFlag_concat_space, ih]

end Prelude

namespace Parser

/-- At most one semicolon is skipped. -/
lemma skipSemicolon_cases (ts : List PlacedToken) : skipSemicolon ts = ts ∨
    ∃ t, t.token = .semicolon ∧ ts = t :: skipSemicolon ts := by
  unfold skipSemicolon
  split
  · exact .inr ⟨_, rfl, rfl⟩
  · exact .inl rfl

/-- A token that the name of a declaration does not go beyond. -/
def endsName : Token → Bool
  | .semicolon | .rightBrace | .eof => true
  | _ => false

/-- The end of the input ends a name. -/
lemma ne_eof_of_endsName {t : Token} (h : endsName t = false) : t ≠ .eof := by
  rintro rfl
  cases h

/-- The name of a property consists of the tokens in front of the colon. -/
lemma readPropertyName_append {start : Position} {ts rest : List PlacedToken} {name : List Token}
    (h : readPropertyName start ts = .ok (name, rest)) : ∃ us colon, us ++ colon :: rest = ts ∧
      us.map PlacedToken.token = name ∧ colon.token = .colon ∧
        ∀ u ∈ us, u.token ≠ .colon ∧ endsName u.token = false := by
  fun_induction readPropertyName start ts generalizing name with
  | case1 => cases h
  | case2 place ts =>
    cases h
    exact ⟨[], _, rfl, rfl, rfl, List.forall_mem_nil _⟩
  | case3 => cases h
  | case4 => cases h
  | case5 => cases h
  | case6 place ts token hcolon hsemi hbrace heof ih =>
    obtain ⟨⟨more, rest'⟩, hr, h⟩ := Grammar.bind_eq_ok.1 h
    cases h
    obtain ⟨us, colon, happ, hmap, hc, hnames⟩ := ih hr
    refine ⟨⟨token, place⟩ :: us, colon, by rw [List.cons_append, happ], by rw [List.map_cons, hmap], hc,
      List.forall_mem_cons.2 ⟨⟨hcolon, ?_⟩, hnames⟩⟩
    cases token with
    | semicolon => exact absurd rfl hsemi
    | rightBrace => exact absurd rfl hbrace
    | eof => exact absurd rfl heof
    | _ => rfl

/-- A missing colon is reported at a token of the stream, or where the declaration starts. -/
lemma readPropertyName_error {start : Position} {ts : List PlacedToken} {e : ParseError}
    (h : readPropertyName start ts = .error e) : e.position = start ∨
      ∃ us t rest, us ++ t :: rest = ts ∧ (∀ u ∈ us, u.token ≠ .eof) ∧ e.position = t.position := by
  fun_induction readPropertyName start ts with
  | case1 =>
    cases h
    exact .inl rfl
  | case2 => cases h
  | case3 place ts =>
    cases h
    exact .inr ⟨[], _, ts, rfl, List.forall_mem_nil _, rfl⟩
  | case4 place ts =>
    cases h
    exact .inr ⟨[], _, ts, rfl, List.forall_mem_nil _, rfl⟩
  | case5 place ts =>
    cases h
    exact .inr ⟨[], _, ts, rfl, List.forall_mem_nil _, rfl⟩
  | case6 place ts token _ _ _ heof ih =>
    have hrest : readPropertyName start ts = .error e := by
      obtain hrest | ⟨read, -, h⟩ := Grammar.bind_eq_error.1 h
      · exact hrest
      · cases h
    obtain hstart | ⟨us, t, rest, happ, hne, hposition⟩ := ih hrest
    · exact .inl hstart
    · exact .inr ⟨⟨token, place⟩ :: us, t, rest, by rw [List.cons_append, happ],
        List.forall_mem_cons.2 ⟨heof, hne⟩, hposition⟩

/-- A block is refused at its end only for the selectors of a rule. -/
lemma Header.exists_of_close_error {header : Header} {position : Position} {body : List Statement}
    {e : ParseError} (h : header.close position body = .error e) :
    ∃ text, header = .rule text ∧ SelectorList.parse text position = .error e := by
  cases header with
  | rule text =>
    obtain hparse | ⟨selector, -, h⟩ := Grammar.bind_eq_error.1 h
    · exact ⟨text, rfl, hparse⟩
    · cases h
  | media => cases h
  | keyframe => cases h
  | atBlock => cases h

end Parser

end ScssExtend
