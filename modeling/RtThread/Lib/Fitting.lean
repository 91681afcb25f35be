import Mathlib

/-!
# The longest prefix that fits a limit

`fitting w limit total xs` takes elements from the front of `xs` as long as their weights, on top of
`total`, stay within `limit`. Its total is the greatest that a prefix can have within the limit.
-/

namespace RtThread.Lib.Fitting

variable {α : Type*} (w : α → ℕ)

def weight (xs : List α) : ℕ := (xs.map w).sum

def fitting (limit : ℕ) : ℕ → List α → List α
  | _, [] => []
  | total, x :: xs => if total + w x ≤ limit then x :: fitting limit (total + w x) xs else []

theorem weight_cons (x : α) (xs : List α) : weight w (x :: xs) = w x + weight w xs := by
  rw [weight, List.map_cons, List.sum_cons, weight]

theorem weight_take_le (xs : List α) (k : ℕ) : weight w (xs.take k) ≤ weight w xs :=
  ((xs.take_sublist k).map w).sum_le_sum fun _ _ => Nat.zero_le _

theorem weight_perm {xs ys : List α} (h : xs.Perm ys) : weight w xs = weight w ys := (h.map w).sum_eq

variable {w} {limit : ℕ}

theorem exists_take_eq_fitting (xs : List α) (total : ℕ) : ∃ k, fitting w limit total xs = xs.take k := by
  induction xs generalizing total with
  | nil => exact ⟨0, rfl⟩
  | cons x xs ih =>
    unfold fitting
    split
    · obtain ⟨k, hk⟩ := ih (total + w x)
      exact ⟨k + 1, by rw [hk, List.take_succ_cons]⟩
    · exact ⟨0, rfl⟩

theorem weight_fitting_le (xs : List α) {total : ℕ} (h : total ≤ limit) :
    total + weight w (fitting w limit total xs) ≤ limit := by
  induction xs generalizing total with
  | nil => exact h
  | cons x xs ih =>
    unfold fitting
    split
    · next hfit =>
      have hrest := ih hfit
      rw [weight_cons]
      omega
    · exact h

theorem weight_take_le_fitting (xs : List α) (total k : ℕ) (h : total + weight w (xs.take k) ≤ limit) :
    weight w (xs.take k) ≤ weight w (fitting w limit total xs) := by
  induction xs generalizing total k with
  | nil =>
    rw [List.take_nil]
    exact Nat.zero_le _
  | cons x xs ih =>
    cases k with
    | zero => exact Nat.zero_le _
    | succ k =>
      rw [List.take_succ_cons, weight_cons] at h ⊢
      have hrest := ih (total + w x) k (by omega)
      rw [fitting, if_pos (by omega), weight_cons]
      omega

theorem fitting_of_le (xs : List α) {total : ℕ} (h : total + weight w xs ≤ limit) : fitting w limit total xs = xs := by
  induction xs generalizing total with
  | nil => rfl
  | cons x xs ih =>
    rw [weight_cons] at h
    rw [fitting, if_pos (by omega), ih (by omega)]

/-- Among the totals of the prefixes within the limit, that of `fitting` is the greatest. -/
theorem isGreatest_fitting (xs : List α) {total : ℕ} (h : total ≤ limit) :
    IsGreatest {n | ∃ k, n = total + weight w (xs.take k) ∧ n ≤ limit}
      (total + weight w (fitting w limit total xs)) := by
  constructor
  · obtain ⟨k, hk⟩ := @exists_take_eq_fitting α w limit xs total
    exact ⟨k, by rw [hk], weight_fitting_le xs h⟩
  · rintro n ⟨k, rfl, hn⟩
    exact Nat.add_le_add_left (weight_take_le_fitting xs total k hn) total

end RtThread.Lib.Fitting
