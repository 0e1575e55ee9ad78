import Mathlib.Data.List.Nodup
import Mathlib.Tactic.Lemma

/-!
# First occurrences

To go through a list and keep each element that no kept one is equivalent to is to erase all but the first of
equivalent elements (`foldl_keep_eq_eraseDupsBy`). When elements are equivalent that have the same key, the
keys of what is kept are the keys of the list, each of them once (`map_eraseDupsBy`, `nodup_eraseDups`).
-/

namespace ScssExtend

variable {α κ : Type}

/-- Keeping what is not there yet keeps first occurrences. -/
lemma foldl_keep_eq_eraseDupsBy (r : α → α → Bool) (xs : List α) :
    xs.foldl (fun kept x => if kept.any (r x) then kept else kept ++ [x]) [] = xs.eraseDupsBy r := by
  -- the library's loop keeps its accumulator in reverse
  have general (kept : List α) :
      xs.foldl (fun kept x => if kept.any (r x) then kept else kept ++ [x]) kept =
        List.eraseDupsBy.loop r xs kept.reverse := by
    induction xs generalizing kept with
    | nil => rw [List.foldl_nil, List.eraseDupsBy.loop, List.reverse_reverse]
    | cons x xs ih =>
      rw [List.foldl_cons, ih, List.eraseDupsBy.loop, List.any_reverse]
      cases kept.any (r x) with
      | true => rfl
      | false => simp
  exact general []

/-- What is kept is kept in order. -/
lemma eraseDupsBy_sublist (r : α → α → Bool) (xs : List α) : (xs.eraseDupsBy r).Sublist xs := by
  induction hn : xs.length using Nat.strongRecOn generalizing xs with
  | _ n ih =>
    cases xs with
    | nil => exact List.Sublist.refl []
    | cons x xs =>
      rw [List.eraseDupsBy_cons]
      refine List.Sublist.cons_cons x ?_
      have hlt : (xs.filter fun y => r y x = false).length < n :=
        hn ▸ Nat.lt_succ_of_le (List.length_filter_le _ _)
      exact (ih _ hlt _ rfl).trans List.filter_sublist

variable [BEq κ]

/-- The keys of what is kept are what is kept of the keys. -/
lemma map_eraseDupsBy (key : α → κ) (xs : List α) :
    (xs.eraseDupsBy fun x y => key x == key y).map key = (xs.map key).eraseDups := by
  have general (kept : List α) :
      (List.eraseDupsBy.loop (fun x y => key x == key y) xs kept).map key =
        List.eraseDupsBy.loop (· == ·) (xs.map key) (kept.map key) := by
    induction xs generalizing kept with
    | nil => simp [List.eraseDupsBy.loop]
    | cons x xs ih =>
      simp only [List.map_cons, List.eraseDupsBy.loop, List.any_map, Function.comp_def]
      cases kept.any fun y => key x == key y with
      | true => exact ih kept
      | false => exact ih (x :: kept)
  exact general []

/-- First occurrences do not repeat. -/
lemma nodup_eraseDups [LawfulBEq κ] (ks : List κ) : ks.eraseDups.Nodup := by
  have general (kept : List κ) (h : kept.Nodup) : (List.eraseDupsBy.loop (· == ·) ks kept).Nodup := by
    induction ks generalizing kept with
    | nil => exact List.nodup_reverse.2 h
    | cons k ks ih =>
      rw [List.eraseDupsBy.loop]
      cases hk : kept.any (k == ·) with
      | true => exact ih kept h
      | false =>
        refine ih (k :: kept) (List.nodup_cons.2 ⟨fun hmem => ?_, h⟩)
        rw [List.any_eq_false] at hk
        exact hk k hmem BEq.rfl
  exact general [] List.nodup_nil

end ScssExtend
