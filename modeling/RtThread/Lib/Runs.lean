import Mathlib

/-!
# Separated runs of numbers

A run `(p, n)` stands for `p, ..., p + n - 1`. A list of runs is separated when no run is empty
and each begins strictly behind the end of those before it, so that the list is sorted and no two
runs touch.
-/

namespace RtThread.Lib.Runs

def points (rs : List (ℕ × ℕ)) : List ℕ := rs.flatMap fun r => List.range' r.1 r.2

structure Separated (rs : List (ℕ × ℕ)) : Prop where
  pos : ∀ r ∈ rs, 0 < r.2
  gap : rs.Pairwise fun a b => a.1 + a.2 < b.1

theorem points_append (xs ys : List (ℕ × ℕ)) : points (xs ++ ys) = points xs ++ points ys :=
  List.flatMap_append

theorem points_cons (r : ℕ × ℕ) (rs : List (ℕ × ℕ)) : points (r :: rs) = List.range' r.1 r.2 ++ points rs :=
  List.flatMap_cons

theorem mem_points {rs : List (ℕ × ℕ)} {p : ℕ} : p ∈ points rs ↔ ∃ r ∈ rs, r.1 ≤ p ∧ p < r.1 + r.2 := by
  simp only [points, List.mem_flatMap, List.mem_range'_1]

theorem separated_nil : Separated [] := ⟨fun _ h => absurd h List.not_mem_nil, List.Pairwise.nil⟩

theorem Separated.tail {r : ℕ × ℕ} {rs : List (ℕ × ℕ)} (h : Separated (r :: rs)) : Separated rs :=
  ⟨fun a ha => h.pos a (List.mem_cons_of_mem r ha), (List.pairwise_cons.mp h.gap).2⟩

theorem separated_middle {xs ys : List (ℕ × ℕ)} {r : ℕ × ℕ} : Separated (xs ++ r :: ys) ↔
    Separated xs ∧ Separated ys ∧ 0 < r.2 ∧ (∀ a ∈ xs, a.1 + a.2 < r.1) ∧ ∀ b ∈ ys, r.1 + r.2 < b.1 := by
  constructor
  · rintro ⟨hpos, hgap⟩
    obtain ⟨hxs, hrest, hcross⟩ := List.pairwise_append.mp hgap
    obtain ⟨hr, hys⟩ := List.pairwise_cons.mp hrest
    refine ⟨⟨fun a ha => hpos a (List.mem_append_left _ ha), hxs⟩,
      ⟨fun b hb => hpos b (List.mem_append_right _ (List.mem_cons_of_mem r hb)), hys⟩,
      hpos r (List.mem_append_right _ List.mem_cons_self), fun a ha => hcross a ha r List.mem_cons_self, hr⟩
  · rintro ⟨hxs, hys, hpos, hbefore, hafter⟩
    refine ⟨fun a ha => ?_, List.pairwise_append.mpr ⟨hxs.gap, List.pairwise_cons.mpr ⟨hafter, hys.gap⟩, ?_⟩⟩
    · rcases List.mem_append.mp ha with ha | ha
      · exact hxs.pos a ha
      · rcases List.mem_cons.mp ha with rfl | ha
        · exact hpos
        · exact hys.pos a ha
    · intro a ha b hb
      have hab := hbefore a ha
      rcases List.mem_cons.mp hb with rfl | hb
      · exact hab
      · exact lt_trans hab (lt_of_le_of_lt (Nat.le_add_right _ _) (hafter b hb))

theorem Separated.disjoint {rs : List (ℕ × ℕ)} (h : Separated rs) {a b : ℕ × ℕ} (ha : a ∈ rs) (hb : b ∈ rs) :
    a = b ∨ a.1 + a.2 < b.1 ∨ b.1 + b.2 < a.1 := by
  have hpair : rs.Pairwise fun x y => x.1 + x.2 < y.1 ∨ y.1 + y.2 < x.1 := h.gap.imp Or.inl
  have : Std.Symm fun x y : ℕ × ℕ => x.1 + x.2 < y.1 ∨ y.1 + y.2 < x.1 := ⟨fun _ _ => Or.symm⟩
  by_cases hab : a = b
  · exact Or.inl hab
  · exact Or.inr (hpair.forall ha hb hab)

/-- Consecutive points of separated runs belong to one of them. -/
theorem Separated.exists_run {rs : List (ℕ × ℕ)} (h : Separated rs) {p n : ℕ} (hn : 0 < n)
    (hall : ∀ i < n, p + i ∈ points rs) : ∃ r ∈ rs, r.1 ≤ p ∧ p + n ≤ r.1 + r.2 := by
  obtain ⟨r, hr, hle, hlt⟩ := mem_points.mp (hall 0 hn)
  refine ⟨r, hr, hle, ?_⟩
  have hstep : ∀ i, i < n → p + i < r.1 + r.2 := by
    intro i
    induction i with
    | zero => exact fun _ => hlt
    | succ i ih =>
      intro hi
      have hprev := ih (Nat.lt_of_succ_lt hi)
      obtain ⟨r', hr', hle', hlt'⟩ := mem_points.mp (hall (i + 1) hi)
      rcases h.disjoint hr hr' with heq | hbefore | hafter
      · rw [heq]
        exact hlt'
      · omega
      · omega
  have := hstep (n - 1) (by omega)
  omega

theorem Separated.nodup_points {rs : List (ℕ × ℕ)} (h : Separated rs) : (points rs).Nodup := by
  refine List.nodup_flatMap.mpr ⟨fun r _ => List.nodup_range', ?_⟩
  refine h.gap.imp fun hab => ?_
  simp only [Function.onFun, List.disjoint_left, List.mem_range'_1]
  omega

end RtThread.Lib.Runs
