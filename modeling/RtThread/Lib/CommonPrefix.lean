import Mathlib

/-!
# The longest common prefix

`common` is the length that two lists have in common, and `shared` the least of these lengths for one list and each
of some others.
-/

namespace RtThread.Lib.CommonPrefix

variable {α : Type*} [DecidableEq α]

def common : List α → List α → ℕ
  | a :: xs, b :: ys => if a = b then common xs ys + 1 else 0
  | _, _ => 0

theorem le_common_iff {xs ys : List α} {n : ℕ} : n ≤ common xs ys ↔ n ≤ xs.length ∧ xs.take n <+: ys := by
  induction xs generalizing ys n with
  | nil =>
    rw [common.eq_def, List.take_nil]
    exact ⟨fun h => ⟨h, List.nil_prefix⟩, fun h => h.1⟩
  | cons a xs ih =>
    cases n with
    | zero => exact iff_of_true (Nat.zero_le _) ⟨Nat.zero_le _, List.nil_prefix⟩
    | succ n =>
      cases ys with
      | nil => exact iff_of_false (Nat.not_succ_le_zero n) fun h => by simpa using h.2
      | cons b ys =>
        rw [common, List.take_succ_cons, List.length_cons, Nat.succ_le_succ_iff, List.cons_prefix_cons]
        by_cases hab : a = b
        · rw [if_pos hab, Nat.succ_le_succ_iff, ih]
          exact ⟨fun h => ⟨h.1, hab, h.2⟩, fun h => ⟨h.1, h.2.2⟩⟩
        · rw [if_neg hab]
          exact iff_of_false (Nat.not_succ_le_zero n) fun h => hab h.2.1

theorem common_self (xs : List α) : common xs xs = xs.length :=
  Nat.le_antisymm (le_common_iff.mp (Nat.le_refl _)).1
    (le_common_iff.mpr ⟨Nat.le_refl _, List.take_prefix _ _⟩)

/-- A list that both begin with is not longer than what they have in common. -/
theorem length_le_common {p xs ys : List α} (hx : p <+: xs) (hy : p <+: ys) : p.length ≤ common xs ys :=
  le_common_iff.mpr ⟨hx.length_le, by rwa [← List.prefix_iff_eq_take.mp hx]⟩

def shared (xs : List α) (lists : List (List α)) : ℕ := lists.foldl (fun n ys => min n (common xs ys)) xs.length

end RtThread.Lib.CommonPrefix
