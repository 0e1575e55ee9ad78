import Mathlib.Data.List.DropRight
import ScssExtend.Proofs.Token.Tiling

/-!
# Tokens start one behind the other

Lines and columns are counted in 32-bit words. As long as neither passes them (`Position.Counts`), they are the
numbers of newlines and of characters behind the last newline (`Position.toNat_advanceOver`), and a place further
behind in the text is a later position (`Position.advanceOver_lt`). So the positions of the tokens of a source text
are strictly increasing (`Lexer.pairwise_tokenize`).
-/

namespace ScssExtend

namespace Position

/-- The characters of the text behind its last newline. -/
def lastLine (cs : List Char) : List Char :=
  cs.rtakeWhile (· ≠ '\n')

/-- Nowhere in the text does the number of its line or column pass 32 bits. -/
def Counts (cs : List Char) : Prop :=
  ∀ front, front <+: cs → front.count '\n' + 1 < UInt32.size ∧ (lastLine front).length + 1 < UInt32.size

variable {cs front more : List Char}

/-- A newline begins a line, and any other character goes on with it. -/
lemma lastLine_concat (cs : List Char) (c : Char) :
    lastLine (cs ++ [c]) = if c = '\n' then [] else lastLine cs ++ [c] := by
  rw [lastLine, List.rtakeWhile_concat]
  by_cases hc : c = '\n' <;> simp [hc, lastLine]

/-- A text without newlines goes on with the line. -/
lemma lastLine_append (h : '\n' ∉ more) : lastLine (front ++ more) = lastLine front ++ more := by
  induction more using List.reverseRecOn with
  | nil => simp
  | append_singleton more c ih =>
    obtain ⟨hmore, hc⟩ := not_or.1 (mt List.mem_append.2 h)
    have hc : c ≠ '\n' := fun heq => hc (List.mem_singleton.2 heq.symm)
    rw [← List.append_assoc, lastLine_concat, if_neg hc, ih hmore, List.append_assoc]

/-- A counted text has counted beginnings. -/
lemma Counts.mono (h : Counts cs) (hfront : front <+: cs) : Counts front :=
  fun front' hfront' => h front' (hfront'.trans hfront)

/-- A text that is not too long is counted. -/
lemma counts_of_length (h : cs.length + 1 < UInt32.size) : Counts cs := by
  intro front hfront
  have hlength := hfront.length_le
  have hcount := front.count_le_length (a := '\n')
  have hline := (front.rtakeWhile_suffix (· ≠ '\n')).length_le
  rw [lastLine]
  omega

/-- A number below the limit is one more without overflow. -/
lemma toNat_add_one {n : UInt32} (h : n.toNat + 1 < UInt32.size) : (n + 1).toNat = n.toNat + 1 := by
  rw [UInt32.toNat_add]
  exact Nat.mod_eq_of_lt h

/-- The line is one more than the number of newlines, the column one more than the length of the line so far. -/
lemma toNat_advanceOver (h : Counts cs) : (start.advanceOver cs).line.toNat = cs.count '\n' + 1 ∧
    (start.advanceOver cs).column.toNat = (lastLine cs).length + 1 := by
  -- from the end, where a character is added to the line that it stands in
  induction cs using List.reverseRecOn with
  | nil => exact ⟨rfl, rfl⟩
  | append_singleton cs c ih =>
    obtain ⟨hline, hcolumn⟩ := ih (h.mono (List.prefix_append cs [c]))
    obtain ⟨hlines, hcolumns⟩ := h _ (List.prefix_refl _)
    rw [advanceOver_append, advanceOver_cons, advanceOver_nil, advance]
    rw [List.count_append] at hlines ⊢
    rw [lastLine_concat] at hcolumns ⊢
    by_cases hc : c = '\n'
    · subst hc
      rw [List.count_singleton_self] at hlines ⊢
      rw [if_pos rfl, if_pos rfl]
      exact ⟨(toNat_add_one (by omega)).trans (by rw [hline]), rfl⟩
    · rw [if_neg hc] at hcolumns
      rw [List.length_append, List.length_singleton] at hcolumns
      rw [if_neg hc, if_neg hc, List.count_singleton, if_neg (by simpa using hc), List.length_append]
      exact ⟨hline, (toNat_add_one (by omega)).trans (by rw [hcolumn]; rfl)⟩

/-- A place further behind in the text is a later position. -/
lemma advanceOver_lt (h : Counts (front ++ more)) (hne : more ≠ []) :
    start.advanceOver front < start.advanceOver (front ++ more) := by
  obtain ⟨hline, hcolumn⟩ := toNat_advanceOver (h.mono (List.prefix_append front more))
  obtain ⟨hline', hcolumn'⟩ := toNat_advanceOver h
  rw [List.count_append] at hline'
  by_cases hnewline : '\n' ∈ more
  · have hcount := List.count_pos_iff.2 hnewline
    exact .inl (UInt32.lt_iff_toNat_lt.2 (by omega))
  · have hlength := List.length_pos_iff.2 hne
    rw [lastLine_append hnewline, List.length_append] at hcolumn'
    rw [List.count_eq_zero.2 hnewline] at hline'
    exact .inr ⟨UInt32.toNat_inj.1 (by omega), UInt32.lt_iff_toNat_lt.2 (by omega)⟩

/-- In a counted text later characters have later positions. -/
lemma advanceOver_take_lt (h : Counts cs) {m n : Nat} (hmn : m < n) (hn : n ≤ cs.length) :
    start.advanceOver (cs.take m) < start.advanceOver (cs.take n) := by
  have hfront : (cs.take n).take m = cs.take m := by
    rw [List.take_take, Nat.min_eq_left (Nat.le_of_lt hmn)]
  have hsplit : cs.take n = cs.take m ++ (cs.take n).drop m := by
    rw [← hfront, List.take_append_drop]
  have hne : (cs.take n).drop m ≠ [] := by
    rw [← List.length_pos_iff, List.length_drop, List.length_take]
    omega
  rw [hsplit]
  exact advanceOver_lt (hsplit ▸ h.mono (List.take_prefix n cs)) hne

end Position

namespace Lexer

variable {cs : List Char} {n : Nat} {tokens : List PlacedToken} {spans : List Span}

/-- The tokens that tile the text from some offset on start there or behind. -/
lemma Tiles.exists_offset (h : Tiles cs n tokens spans) : ∀ t ∈ tokens,
    ∃ m, n ≤ m ∧ m ≤ cs.length ∧ t.position = Position.start.advanceOver (cs.take m) := by
  induction h with
  | eof hle _ => exact List.forall_mem_singleton.2 ⟨cs.length, hle, le_rfl, by rw [List.take_length]⟩
  | @token n t span tokens spans hread _ ih =>
    have hstart := hread.le_start
    have hlt := hread.start_lt_stop
    have hstop := hread.stop_le
    refine List.forall_mem_cons.2 ⟨⟨span.start, hstart, by omega, hread.position⟩, fun u hu => ?_⟩
    obtain ⟨m, hm, hle, heq⟩ := ih u hu
    exact ⟨m, by omega, hle, heq⟩

/-- The tokens of a counted text have increasing positions. -/
lemma Tiles.pairwise_position (h : Tiles cs n tokens spans) (hcounts : Position.Counts cs) :
    tokens.Pairwise fun t u => t.position < u.position := by
  induction h with
  | eof => exact List.pairwise_singleton _ _
  | @token n t span tokens spans hread htiles ih =>
    refine List.pairwise_cons.2 ⟨fun u hu => ?_, ih⟩
    obtain ⟨m, hm, hle, heq⟩ := htiles.exists_offset u hu
    rw [hread.position, heq]
    exact Position.advanceOver_take_lt hcounts (Nat.lt_of_lt_of_le hread.start_lt_stop hm) hle

/-- The tokens of a source text that is counted start at later and later positions. -/
lemma pairwise_tokenize {source : String} (h : Position.Counts source.toList) :
    (tokenize source).Pairwise fun t u => t.position < u.position := by
  obtain ⟨spans, htiles⟩ := exists_tiles [] source.toList
  exact htiles.pairwise_position h

end Lexer

end ScssExtend
