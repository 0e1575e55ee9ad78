import Mathlib.Data.List.Destutter
import Mathlib.Tactic.Lemma
import ScssExtend.OrderedSet

/-!
# Ordered sets as sets

What insertion does to the elements of an ordered set (`mem_insertInto`, `contains_insert`), and the invariant
that the listing strictly increases (`increasing_ofList`). For an order in which elements that compare as equal
are equal, `OrderedSet.ofList` lists exactly the elements of the list it was made of (`mem_ofList`), and a
strictly increasing listing is determined by its elements (`eq_of_increasing`), so that it is what is left of the
sorted list when equal neighbours are dropped (`toList_ofList_eq_destutter`).
-/

namespace ScssExtend

namespace OrderedSet

variable {α : Type} [Ord α]

/-- A listing in which every element is before all later ones. -/
def Increasing (xs : List α) : Prop :=
  xs.Pairwise fun x y => compare x y = .lt

/-- Inserting adds no other element. -/
lemma eq_or_mem_of_mem_insertInto {x y : α} {ys : List α} (h : y ∈ insertInto x ys) :
    y = x ∨ y ∈ ys := by
  induction ys with
  | nil => exact .inl (List.mem_singleton.1 h)
  | cons z zs ih =>
    unfold insertInto at h
    split at h
    · exact List.mem_cons.1 h
    · exact .inr h
    · rcases List.mem_cons.1 h with rfl | h
      · exact .inr List.mem_cons_self
      · rcases ih h with rfl | h
        · exact .inl rfl
        · exact .inr (List.mem_cons_of_mem _ h)

/-- Inserting keeps a list increasing. -/
lemma increasing_insertInto [Std.TransOrd α] {x : α} {ys : List α} (h : Increasing ys) :
    Increasing (insertInto x ys) := by
  induction ys with
  | nil => exact List.pairwise_singleton _ _
  | cons z zs ih =>
    obtain ⟨hz, hzs⟩ := List.pairwise_cons.1 h
    unfold insertInto
    split
    · next hlt =>
      refine List.pairwise_cons.2 ⟨?_, h⟩
      intro y hy
      rcases List.mem_cons.1 hy with rfl | hy
      · exact hlt
      · exact Std.TransCmp.lt_trans hlt (hz y hy)
    · exact h
    · next hgt =>
      refine List.pairwise_cons.2 ⟨?_, ih hzs⟩
      intro y hy
      rcases eq_or_mem_of_mem_insertInto hy with rfl | hy
      · exact Std.OrientedCmp.gt_iff_lt.1 hgt
      · exact hz y hy

/-- An invariant of insertion holds of every set that is made of a list. -/
lemma ofList_induction {motive : OrderedSet α → Prop} (xs : List α) (empty : motive .empty)
    (insert : ∀ s, ∀ x ∈ xs, motive s → motive (s.insert x)) : motive (ofList xs) := by
  unfold ofList
  generalize OrderedSet.empty = s at empty
  induction xs generalizing s with
  | nil => exact empty
  | cons x xs ih =>
    refine ih ?_ _ (insert s x List.mem_cons_self empty)
    exact fun t y hy => insert t y (List.mem_cons_of_mem _ hy)

/-- The listing of a set that is made of a list increases. -/
lemma increasing_ofList [Std.TransOrd α] (xs : List α) : Increasing (ofList xs).toList :=
  ofList_induction xs List.Pairwise.nil fun _ _ _ h => increasing_insertInto h

/-- After an insertion a set contains what is equal to the inserted element, and what it contained before. -/
lemma contains_insert [Std.TransOrd α] {s : OrderedSet α} {x y : α} :
    (s.insert x).contains y ↔ compare y x = .eq ∨ s.contains y := by
  constructor
  · intro h
    simp only [contains, insert, List.any_eq_true, beq_iff_eq] at h ⊢
    obtain ⟨z, hz, hyz⟩ := h
    rcases eq_or_mem_of_mem_insertInto hz with rfl | hz
    · exact .inl hyz
    · exact .inr ⟨z, hz, hyz⟩
  · rintro (h | h)
    · have hx := contains_insert_self s x
      simp only [contains, List.any_eq_true, beq_iff_eq] at hx ⊢
      obtain ⟨z, hz, hxz⟩ := hx
      exact ⟨z, hz, Std.TransCmp.eq_trans h hxz⟩
    · exact contains_insert_of_contains h

/-- A set contains what is equal to an element of the list that it is made of. -/
lemma contains_ofList [Std.TransOrd α] {x : α} {xs : List α} :
    (ofList xs).contains x ↔ ∃ y ∈ xs, compare x y = .eq := by
  have general (s : OrderedSet α) :
      (xs.foldl insert s).contains x ↔ s.contains x ∨ ∃ y ∈ xs, compare x y = .eq := by
    induction xs generalizing s with
    | nil => simp
    | cons y ys ih =>
      rw [List.foldl_cons, ih, contains_insert, List.exists_mem_cons_iff]
      tauto
  rw [ofList, general]
  simp [empty, contains]

section Lawful

variable [Std.LawfulEqOrd α]

/-- With a lawful order, insertion adds exactly the inserted element. -/
lemma mem_insertInto {x y : α} {ys : List α} : y ∈ insertInto x ys ↔ y = x ∨ y ∈ ys := by
  refine ⟨eq_or_mem_of_mem_insertInto, ?_⟩
  rintro (rfl | h)
  · have h := contains_insert_self ⟨ys⟩ y
    simp only [contains, List.any_eq_true, beq_iff_eq] at h
    obtain ⟨z, hz, hyz⟩ := h
    have e := Std.LawfulEqOrd.eq_of_compare hyz
    subst e
    exact hz
  · exact mem_insertInto_of_mem h

/-- A set lists the elements of the list that it is made of. -/
lemma mem_ofList {x : α} {xs : List α} : x ∈ (ofList xs).toList ↔ x ∈ xs := by
  have general (s : OrderedSet α) : x ∈ (xs.foldl insert s).toList ↔ x ∈ s.toList ∨ x ∈ xs := by
    induction xs generalizing s with
    | nil => simp
    | cons y ys ih =>
      rw [List.foldl_cons, ih, insert, mem_insertInto, List.mem_cons]
      tauto
  rw [ofList, general]
  simp [empty]

/-- Two increasing listings of the same elements are the same listing. -/
lemma eq_of_increasing [Std.TransOrd α] {xs ys : List α} (hx : Increasing xs) (hy : Increasing ys)
    (h : ∀ z, z ∈ xs ↔ z ∈ ys) : xs = ys := by
  have irrefl {a b : α} (hab : compare a b = .lt) : a ≠ b := by
    rintro rfl
    simp at hab
  have nodup {zs : List α} (hz : Increasing zs) : zs.Nodup := List.Pairwise.imp irrefl hz
  refine List.Perm.eq_of_pairwise ?_ hx hy ?_
  · intro a b _ _ hab hba
    exact absurd rfl (irrefl (Std.TransCmp.lt_trans hab hba))
  · exact (List.perm_ext_iff_of_nodup (nodup hx) (nodup hy)).2 h

/-- However a list is sorted, the set that is made of it lists it without equal neighbours. -/
lemma toList_ofList_eq_destutter [DecidableEq α] [Std.TransOrd α] {xs ys : List α} (hperm : ys.Perm xs)
    (hsorted : ys.Pairwise fun x y => (compare x y).isLE) : (ofList xs).toList = ys.destutter (· ≠ ·) := by
  have hantisymm : Std.Antisymm fun x y : α => (compare x y).isLE :=
    ⟨fun _ _ hxy hyx => Std.LawfulEqOrd.eq_of_compare (Std.OrientedCmp.isLE_antisymm hxy hyx)⟩
  rw [hsorted.destutter_eq_dedup]
  have hincreasing : Increasing ys.dedup := by
    refine ((hsorted.sublist (List.dedup_sublist ys)).and (List.nodup_dedup ys)).imp ?_
    rintro x y ⟨hle, hne⟩
    exact (Ordering.isLE_iff_eq_lt_or_eq_eq.1 hle).resolve_right (mt Std.LawfulEqOrd.eq_of_compare hne)
  refine eq_of_increasing (increasing_ofList xs) hincreasing fun x => ?_
  rw [mem_ofList, List.mem_dedup, hperm.mem_iff]

end Lawful

end OrderedSet

end ScssExtend
