import Mathlib

/-!
# Flag words

`has x m` is the truth value of the C expression `x & m`.
-/

namespace RtThread.Lib.Flags

variable {w : ℕ}

def has (x m : BitVec w) : Bool := decide (x &&& m ≠ 0)

theorem has_eq_false {x m : BitVec w} : has x m = false ↔ x &&& m = 0 := by
  rw [has, decide_eq_false_iff_not, not_not]

theorem has_or (x y m : BitVec w) : has (x ||| y) m = (has x m || has y m) := by
  rw [Bool.eq_iff_iff, ← not_iff_not]
  simp only [Bool.not_eq_true, Bool.or_eq_false_iff, has_eq_false]
  rw [BitVec.and_or_distrib_right]
  exact BitVec.or_eq_zero_iff

theorem has_and (x y m : BitVec w) : has (x &&& y) m = has x (y &&& m) := by
  rw [has, has, BitVec.and_assoc]

theorem has_or_right (x m n : BitVec w) : has x (m ||| n) = (has x m || has x n) := by
  rw [Bool.eq_iff_iff, ← not_iff_not]
  simp only [Bool.not_eq_true, Bool.or_eq_false_iff, has_eq_false]
  rw [BitVec.and_or_distrib_left]
  exact BitVec.or_eq_zero_iff

@[simp] theorem has_zero_left (m : BitVec w) : has 0 m = false := by
  rw [has_eq_false]
  exact BitVec.zero_and

@[simp] theorem has_zero_right (x : BitVec w) : has x 0 = false := by
  rw [has_eq_false]
  exact BitVec.and_zero

end RtThread.Lib.Flags
