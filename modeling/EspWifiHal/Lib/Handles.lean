import Mathlib.Algebra.GroupWithZero.Nat
import Mathlib.Algebra.Order.Group.Nat
import Mathlib.Algebra.BigOperators.Group.List.Basic
import Mathlib.Algebra.Order.BigOperators.Group.List

/-!
# Counting handles

A pool of handles, each in some stage of its life.  A handle in the stage `a` weighs `w a`,
and `total w` is what a counter that is kept along with the pool has to show: moving one
handle to another stage changes it by the difference of the weights.
-/

namespace Handles

variable {α : Type*} (w : α → Nat)

/-- The weight of all handles. -/
def total (xs : List α) : Nat := (xs.map w).sum

@[simp] theorem total_nil : total w [] = 0 := rfl

@[simp] theorem total_cons (a : α) (xs : List α) : total w (a :: xs) = w a + total w xs := by
  rw [total, List.map_cons, List.sum_cons, total]

/-- A new handle. -/
theorem total_concat (xs : List α) (a : α) : total w (xs ++ [a]) = total w xs + w a := by
  rw [total, List.map_append, List.sum_append, total, List.map_singleton, List.sum_singleton]

/-- A handle that goes from the stage `a` to the stage `b`. -/
theorem total_set {xs : List α} {i : Nat} {a : α} (h : xs[i]? = some a) (b : α) :
    total w (xs.set i b) + w a = total w xs + w b := by
  induction xs generalizing i with
  | nil => simp at h
  | cons x xs ih =>
      cases i with
      | zero =>
          obtain rfl : x = a := by simpa using h
          rw [List.set_cons_zero, total_cons, total_cons]
          omega
      | succ i =>
          have hrest := ih (by simpa using h)
          rw [List.set_cons_succ, total_cons, total_cons]
          omega

/-- No handle weighs more than all. -/
theorem le_total {xs : List α} {i : Nat} {a : α} (h : xs[i]? = some a) : w a ≤ total w xs :=
  List.single_le_sum (fun _ _ => Nat.zero_le _) _
    (List.mem_map_of_mem (List.mem_of_getElem? h))

/-- Where every handle weighs less, the total is not larger. -/
theorem total_mono {v w : α → Nat} (h : ∀ a, v a ≤ w a) (xs : List α) :
    total v xs ≤ total w xs := by
  induction xs with
  | nil => exact Nat.le_refl _
  | cons x xs ih =>
      rw [total_cons, total_cons]
      exact Nat.add_le_add (h x) ih

end Handles
