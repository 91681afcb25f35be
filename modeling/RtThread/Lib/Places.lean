import Mathlib

/-!
# Numbered slots in several lists

`Located l n`: each of the slots `0, ..., n - 1` is in exactly one of the lists `l p`, and there once. A slot
that moves from one list to another keeps this.
-/

namespace RtThread.Lib.Places

variable {P : Type*}

structure Located (l : P → List ℕ) (n : ℕ) : Prop where
  nodup : ∀ p, (l p).Nodup
  lt : ∀ p, ∀ i ∈ l p, i < n
  one : ∀ i < n, ∃! p, i ∈ l p

variable {l l' : P → List ℕ} {n i : ℕ} {p r : P}

theorem Located.eq_of_mem (h : Located l n) (hp : i ∈ l p) (hr : i ∈ l r) : p = r :=
  (h.one i (h.lt p i hp)).unique hp hr

theorem Located.length_le (h : Located l n) (p : P) : (l p).length ≤ n := by
  have hsub : l p ⊆ List.range n := fun i hi => List.mem_range.mpr (h.lt p i hi)
  have hle := (List.subperm_of_subset (h.nodup p) hsub).length_le
  rwa [List.length_range] at hle

theorem Located.mem_move (h : Located l n) (hsrc : (l p).Perm (i :: l' p)) (hdst : (l' r).Perm (i :: l r))
    (hother : ∀ q, q ≠ p → q ≠ r → l' q = l q) (j : ℕ) (q : P) :
    j ∈ l' q ↔ j ∈ l q ∧ j ≠ i ∨ j = i ∧ q = r := by
  have hi : i ∈ l p := hsrc.mem_iff.mpr List.mem_cons_self
  have hnot : i ∉ l' p := (List.nodup_cons.mp (hsrc.nodup_iff.mp (h.nodup p))).1
  by_cases hqr : q = r
  · rw [hqr, hdst.mem_iff, List.mem_cons]
    by_cases hji : j = i
    · simp [hji]
    · simp [hji]
  · by_cases hqp : q = p
    · rw [hqp, hsrc.mem_iff, List.mem_cons]
      have hpr : p ≠ r := hqp ▸ hqr
      by_cases hji : j = i
      · simp [hji, hnot, hpr]
      · simp [hji]
    · rw [hother q hqp hqr]
      constructor
      · intro hj
        refine Or.inl ⟨hj, ?_⟩
        rintro rfl
        exact hqp (h.eq_of_mem hj hi)
      · rintro (⟨hj, -⟩ | ⟨-, hq⟩)
        · exact hj
        · exact absurd hq hqr

/-- The slot `i` moves from the list of `p` to that of `r`. -/
theorem Located.move (h : Located l n) (hpr : p ≠ r) (hsrc : (l p).Perm (i :: l' p))
    (hdst : (l' r).Perm (i :: l r)) (hother : ∀ q, q ≠ p → q ≠ r → l' q = l q) : Located l' n := by
  have hmem := h.mem_move hsrc hdst hother
  have hi : i ∈ l p := hsrc.mem_iff.mpr List.mem_cons_self
  have hnot : i ∉ l r := fun hr => hpr (h.eq_of_mem hi hr)
  constructor
  · intro q
    by_cases hqr : q = r
    · rw [hqr, hdst.nodup_iff]
      exact List.nodup_cons.mpr ⟨hnot, h.nodup r⟩
    · by_cases hqp : q = p
      · rw [hqp]
        exact (List.nodup_cons.mp (hsrc.nodup_iff.mp (h.nodup p))).2
      · rw [hother q hqp hqr]
        exact h.nodup q
  · intro q j hj
    rcases (hmem j q).mp hj with ⟨hj, -⟩ | ⟨rfl, -⟩
    · exact h.lt q j hj
    · exact h.lt p j hi
  · intro j hj
    by_cases hji : j = i
    · refine ⟨r, (hmem j r).mpr (Or.inr ⟨hji, rfl⟩), fun q hq => ?_⟩
      rcases (hmem j q).mp hq with ⟨-, hne⟩ | ⟨-, hqr⟩
      · exact absurd hji hne
      · exact hqr
    · obtain ⟨q, hq, huniq⟩ := h.one j hj
      refine ⟨q, (hmem j q).mpr (Or.inl ⟨hq, hji⟩), fun q' hq' => ?_⟩
      rcases (hmem j q').mp hq' with ⟨hq', -⟩ | ⟨hj, -⟩
      · exact huniq q' hq'
      · exact absurd hj hji

end RtThread.Lib.Places
