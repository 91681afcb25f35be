import Mathlib

/-!
# Counters of threads

A program that keeps the number of the threads in some place changes its counter by one when a
thread comes to that place or leaves it.
-/

namespace RtThread.Lib.Counting

variable {T P : Type*} [Fintype T] [DecidableEq T]

/-- The number of the indices at which `f` satisfies `Q`. -/
def count (Q : P → Bool) (f : T → P) : ℕ := (Finset.univ.filter fun t => Q (f t) = true).card

theorem count_update (Q : P → Bool) (f : T → P) (t : T) (p : P) :
    (count Q (Function.update f t p) : ℤ) =
      count Q f + (if Q p = true then 1 else 0) - (if Q (f t) = true then 1 else 0) := by
  have hsum : ∀ g : T → P, (count Q g : ℤ) =
      (if Q (g t) = true then 1 else 0) + ∑ u ∈ Finset.univ.erase t, if Q (g u) = true then 1 else 0 := by
    intro g
    rw [count, Finset.natCast_card_filter, ← Finset.add_sum_erase _ _ (Finset.mem_univ t)]
  have hrest : (∑ u ∈ Finset.univ.erase t, if Q (Function.update f t p u) = true then (1 : ℤ) else 0) =
      ∑ u ∈ Finset.univ.erase t, if Q (f u) = true then 1 else 0 := by
    refine Finset.sum_congr rfl fun u hu => ?_
    rw [Function.update_of_ne (Finset.ne_of_mem_erase hu)]
  rw [hsum, hsum, hrest, Function.update_self]
  omega

omit [DecidableEq T] in
theorem count_congr {Q : P → Bool} {f g : T → P} (h : ∀ t, Q (f t) = Q (g t)) : count Q f = count Q g := by
  unfold count
  congr 1
  ext t
  rw [Finset.mem_filter, Finset.mem_filter, h]

omit [DecidableEq T] in
theorem count_eq_zero_iff {Q : P → Bool} {f : T → P} : count Q f = 0 ↔ ∀ t, Q (f t) = false := by
  rw [count, Finset.card_eq_zero, Finset.filter_eq_empty_iff]
  simp

omit [DecidableEq T] in
theorem count_pos {Q : P → Bool} {f : T → P} {t : T} (h : Q (f t) = true) : 0 < count Q f :=
  Finset.card_pos.mpr ⟨t, Finset.mem_filter.mpr ⟨Finset.mem_univ t, h⟩⟩

end RtThread.Lib.Counting
