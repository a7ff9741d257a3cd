/-!
# Lists in order

Sorting by insertion. `ordered le xs` holds the elements of `xs` (`ordered_perm`), each related by
`le` to all that come after it if `le` is total and transitive (`pairwise_ordered`).
-/

namespace Spillway

/-- Insert an element into a list that is in order, before the first element it may precede. -/
def insertOrdered (le : α → α → Bool) (x : α) : List α → List α
  | [] => [x]
  | y :: ys => if le x y then x :: y :: ys else y :: insertOrdered le x ys

/-- The elements of a list in order. -/
def ordered (le : α → α → Bool) (xs : List α) : List α := xs.foldr (insertOrdered le) []

theorem insertOrdered_perm (le : α → α → Bool) (x : α) (ys : List α) :
    (insertOrdered le x ys).Perm (x :: ys) := by
  induction ys with
  | nil => exact .refl _
  | cons y ys ih =>
    unfold insertOrdered
    split
    · exact .refl _
    · exact (ih.cons y).trans (.swap x y ys)

theorem ordered_perm (le : α → α → Bool) (xs : List α) : (ordered le xs).Perm xs := by
  induction xs with
  | nil => exact .refl _
  | cons x xs ih => exact (insertOrdered_perm le x _).trans (ih.cons x)

theorem pairwise_insertOrdered {le : α → α → Bool} (total : ∀ x y, le x y || le y x)
    (trans : ∀ x y z, le x y → le y z → le x z) (x : α) {ys : List α}
    (h : ys.Pairwise fun a b => le a b) :
    (insertOrdered le x ys).Pairwise fun a b => le a b := by
  induction h with
  | nil => simp [insertOrdered]
  | @cons y ys hy hys ih =>
    unfold insertOrdered
    split
    · rename_i hxy
      refine .cons (fun z hz => ?_) (.cons hy hys)
      rcases List.mem_cons.mp hz with rfl | hz
      · exact hxy
      · exact trans x y z hxy (hy z hz)
    · rename_i hxy
      refine .cons (fun z hz => ?_) ih
      have hyx : le y x := by
        have := total x y
        simp_all
      rcases List.mem_cons.mp ((insertOrdered_perm le x ys).mem_iff.mp hz) with rfl | hz
      · exact hyx
      · exact hy z hz

theorem pairwise_ordered {le : α → α → Bool} (total : ∀ x y, le x y || le y x)
    (trans : ∀ x y z, le x y → le y z → le x z) (xs : List α) :
    (ordered le xs).Pairwise fun a b => le a b := by
  induction xs with
  | nil => exact .nil
  | cons x xs ih => exact pairwise_insertOrdered total trans x ih

theorem mem_ordered {le : α → α → Bool} {x : α} {xs : List α} : x ∈ ordered le xs ↔ x ∈ xs :=
  (ordered_perm le xs).mem_iff

end Spillway
