import Mathlib

/-!
# Lists that are in order up to one rotation

`Rotated R l` says that `l` is cut into two parts which, put together the other way round, are in
the order `R`. An element that comes after the last one, or before the first, can be appended.
-/

namespace RtThread.Lib.Rotation

variable {α : Type*} {R : α → α → Prop}

def Rotated (R : α → α → Prop) (l : List α) : Prop := ∃ a b, l = a ++ b ∧ (b ++ a).Pairwise R

theorem Rotated.of_pairwise {l : List α} (h : l.Pairwise R) : Rotated R l :=
  ⟨l, [], (List.append_nil l).symm, h⟩

theorem Rotated.sublist {l l' : List α} (h : Rotated R l) (hsub : List.Sublist l' l) : Rotated R l' := by
  obtain ⟨a, b, rfl, hpair⟩ := h
  obtain ⟨a', b', rfl, ha, hb⟩ := List.sublist_append_iff.mp hsub
  exact ⟨a', b', rfl, hpair.sublist (hb.append ha)⟩

theorem Rotated.pairwise_or {l : List α} (h : Rotated R l) {P : α → α → Prop} (hP : ∀ x y, R x y → P x y)
    (hsymm : ∀ x y, P x y → P y x) : l.Pairwise P := by
  obtain ⟨a, b, rfl, hpair⟩ := h
  exact (List.pairwise_append_comm fun {x y} hxy => hsymm x y hxy).mp (hpair.imp fun hxy => hP _ _ hxy)

/-- The order depends only on the relation between the members. -/
theorem Rotated.congr {S : α → α → Prop} {l : List α} (h : Rotated R l)
    (hRS : ∀ x ∈ l, ∀ y ∈ l, R x y → S x y) : Rotated S l := by
  obtain ⟨a, b, rfl, hpair⟩ := h
  refine ⟨a, b, rfl, hpair.imp_of_mem fun {x y} hx hy hxy => hRS x ?_ y ?_ hxy⟩
  · exact List.mem_append.mpr (List.mem_append.mp hx).symm
  · exact List.mem_append.mpr (List.mem_append.mp hy).symm

/-- A list that is not in order has its last element before its first one. -/
theorem Rotated.pairwise_or_last {l : List α} {first last : α} (h : Rotated R l) (hfirst : l.head? = some first)
    (hlast : l.getLast? = some last) : l.Pairwise R ∨ R last first := by
  obtain ⟨a, b, rfl, hpair⟩ := h
  cases a with
  | nil =>
    rw [List.append_nil] at hpair
    exact Or.inl hpair
  | cons y a =>
    rcases List.eq_nil_or_concat b with rfl | ⟨b, z, rfl⟩
    · rw [List.append_nil]
      exact Or.inl hpair
    · rw [List.concat_eq_append] at hpair hlast
      rw [List.cons_append, List.head?_cons, Option.some.injEq] at hfirst
      rw [← List.append_assoc, List.getLast?_concat, Option.some.injEq] at hlast
      rw [← hfirst, ← hlast]
      exact Or.inr ((List.pairwise_append.mp hpair).2.2 z (by simp) y List.mem_cons_self)

section Trans

variable (htrans : ∀ x y z, R x y → R y z → R x z)

include htrans

/-- Behind the last element of an ordered list there is room for a larger one. -/
theorem pairwise_snoc {l : List α} {last x : α} (h : (l ++ [last]).Pairwise R) (hx : R last x) :
    (l ++ [last, x]).Pairwise R := by
  rw [show l ++ [last, x] = (l ++ [last]) ++ [x] from (List.append_assoc l [last] [x]).symm]
  refine List.pairwise_append.mpr ⟨h, List.pairwise_singleton R x, fun y hy z hz => ?_⟩
  rw [List.mem_singleton.mp hz]
  rcases List.mem_append.mp hy with hy | hy
  · exact htrans y last x ((List.pairwise_append.mp h).2.2 y hy last List.mem_cons_self) hx
  · rw [List.mem_singleton.mp hy]
    exact hx

theorem pairwise_cons_cons {l : List α} {first x : α} (h : (first :: l).Pairwise R) (hx : R x first) :
    (x :: first :: l).Pairwise R := by
  refine List.pairwise_cons.mpr ⟨fun y hy => ?_, h⟩
  rcases List.mem_cons.mp hy with rfl | hy
  · exact hx
  · exact htrans x first y hx (List.rel_of_pairwise_cons h hy)

/-- A list that is not in order can be continued between its last and its first element. -/
theorem Rotated.snoc_between {l : List α} {first last x : α} (h : Rotated R l) (hnot : ¬l.Pairwise R)
    (hfirst : l.head? = some first) (hlast : l.getLast? = some last) (hlx : R last x) (hxf : R x first) :
    Rotated R (l ++ [x]) := by
  obtain ⟨a, b, rfl, hpair⟩ := h
  cases a with
  | nil =>
    rw [List.append_nil] at hpair
    exact absurd hpair hnot
  | cons y a =>
    rcases List.eq_nil_or_concat b with rfl | ⟨b, z, rfl⟩
    · rw [List.append_nil] at hnot
      exact absurd hpair hnot
    · rw [List.concat_eq_append] at hpair hlast ⊢
      rw [List.cons_append, List.head?_cons, Option.some.injEq] at hfirst
      rw [← List.append_assoc, List.getLast?_concat, Option.some.injEq] at hlast
      subst hfirst hlast
      refine ⟨y :: a, b ++ [z, x], by simp, ?_⟩
      have hb := pairwise_snoc htrans (List.pairwise_append.mp hpair).1 hlx
      have hya := (List.pairwise_append.mp hpair).2.1
      refine List.pairwise_append.mpr ⟨hb, hya, fun u hu v hv => ?_⟩
      rw [show b ++ [z, x] = (b ++ [z]) ++ [x] from (List.append_assoc b [z] [x]).symm] at hu
      rcases List.mem_append.mp hu with hu | hu
      · exact (List.pairwise_append.mp hpair).2.2 u hu v hv
      · rw [List.mem_singleton.mp hu]
        exact List.rel_of_pairwise_cons (pairwise_cons_cons htrans hya hxf) hv

end Trans

end RtThread.Lib.Rotation
