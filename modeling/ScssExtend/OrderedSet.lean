/-!
# Ordered sets

A finite set kept as a list in increasing order of its elements, of which elements that compare as equal are
listed once: `insert` leaves the set alone when it holds an equal element already.
-/

namespace ScssExtend

/-- A set as the increasing list of its elements. -/
structure OrderedSet (α : Type) where
  toList : List α
  deriving DecidableEq

namespace OrderedSet

variable {α : Type} [Ord α]

/-- The set without elements. -/
def empty : OrderedSet α := ⟨[]⟩

/-- Puts an element in its place in an increasing list that lacks it. -/
def insertInto (x : α) : List α → List α
  | [] => [x]
  | y :: ys =>
    match compare x y with
    | .lt => x :: y :: ys
    | .eq => y :: ys
    | .gt => y :: insertInto x ys

/-- The set with `x` in it; of two equal elements the first one to come stays. -/
def insert (s : OrderedSet α) (x : α) : OrderedSet α :=
  ⟨insertInto x s.toList⟩

/-- The set of the elements of a list. -/
def ofList (xs : List α) : OrderedSet α :=
  xs.foldl insert empty

/-- True when an element equal to `x` is in the set. -/
def contains (s : OrderedSet α) (x : α) : Bool :=
  s.toList.any fun y => compare x y == .eq

/-- The number of elements. -/
def size (s : OrderedSet α) : Nat :=
  s.toList.length

/-- Inserting takes no element away. -/
theorem mem_insertInto_of_mem {x y : α} {ys : List α} (h : y ∈ ys) : y ∈ insertInto x ys := by
  induction ys with
  | nil => cases h
  | cons z zs ih =>
    unfold insertInto
    split
    · exact List.mem_cons_of_mem _ h
    · exact h
    · rcases List.mem_cons.1 h with rfl | h
      · exact List.mem_cons_self
      · exact List.mem_cons_of_mem _ (ih h)

/-- After insertion an element equal to the inserted one is there. -/
theorem contains_insert_self [Std.ReflOrd α] (s : OrderedSet α) (x : α) :
    (s.insert x).contains x := by
  obtain ⟨ys⟩ := s
  simp only [contains, insert, List.any_eq_true]
  induction ys with
  | nil => exact ⟨x, by simp [insertInto], by simp⟩
  | cons z zs ih =>
    unfold insertInto
    split
    · exact ⟨x, by simp, by simp⟩
    · next h => exact ⟨z, by simp, by simp [h]⟩
    · obtain ⟨y, hy, h⟩ := ih
      exact ⟨y, List.mem_cons_of_mem _ hy, h⟩

/-- What a set contains it still contains after an insertion. -/
theorem contains_insert_of_contains {s : OrderedSet α} {x y : α} (h : s.contains y) :
    (s.insert x).contains y := by
  simp only [contains, insert, List.any_eq_true] at h ⊢
  obtain ⟨z, hz, h⟩ := h
  exact ⟨z, mem_insertInto_of_mem hz, h⟩

end OrderedSet

end ScssExtend
