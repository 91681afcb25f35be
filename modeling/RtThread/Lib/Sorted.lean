import Mathlib

/-!
# Lists sorted by a key

A list of different elements in the order of a key, and what becomes of the order when the key of one element
changes.
-/

namespace RtThread.Lib.Sorted

variable {α κ : Type*} [LinearOrder κ]

/-- The elements are in strict order of their keys. -/
def SortedBy (key : α → κ) (l : List α) : Prop := l.Pairwise fun a b => key a < key b

theorem SortedBy.sublist {key : α → κ} {l l' : List α} (h : SortedBy key l) (hl : l'.Sublist l) : SortedBy key l' :=
  List.Pairwise.sublist hl h

theorem sortedBy_congr {key key' : α → κ} {l : List α} (h : ∀ a ∈ l, key' a = key a) :
    SortedBy key' l ↔ SortedBy key l := by
  refine List.Pairwise.iff_of_mem fun {a b} ha hb => ?_
  rw [h a ha, h b hb]

theorem SortedBy.head_le {key : α → κ} {l : List α} {a b : α} (h : SortedBy key l) (ha : l.head? = some a)
    (hb : b ∈ l) : key a ≤ key b := by
  obtain ⟨rest, rfl⟩ := List.head?_eq_some_iff.mp ha
  rcases List.mem_cons.mp hb with rfl | hb
  · exact le_rfl
  · exact ((List.pairwise_cons.mp h).1 b hb).le

variable [DecidableEq α]

/-- A new key of one element keeps the order when each other element compares to it as before. -/
theorem SortedBy.update_iff {key : α → κ} {l : List α} {t : α} {x : κ} (h : SortedBy key l) (ht : t ∈ l)
    (hx : ∀ u ∈ l, u ≠ t → key u ≠ x) :
    SortedBy (Function.update key t x) l ↔ ∀ u ∈ l, u ≠ t → (key u < key t ↔ key u < x) := by
  obtain ⟨xs, ys, rfl⟩ := List.append_of_mem ht
  obtain ⟨hxs, hys, hcross⟩ := List.pairwise_append.mp h
  obtain ⟨hty, hys⟩ := List.pairwise_cons.mp hys
  have hnx : ∀ a ∈ xs, a ≠ t := by
    rintro a ha rfl
    exact lt_irrefl _ (hcross a ha a List.mem_cons_self)
  have hny : ∀ b ∈ ys, b ≠ t := by
    rintro b hb rfl
    exact lt_irrefl _ (hty b hb)
  have hsame : ∀ u, u ≠ t → Function.update key t x u = key u := fun u hu => Function.update_of_ne hu x key
  constructor
  · intro h' u hu hut
    obtain ⟨-, hys', hcross'⟩ := List.pairwise_append.mp h'
    rcases List.mem_append.mp hu with hu | hu
    · have hlt := hcross' u hu t List.mem_cons_self
      rw [hsame u hut, Function.update_self] at hlt
      exact iff_of_true (hcross u hu t List.mem_cons_self) hlt
    · have hu := (List.mem_cons.mp hu).resolve_left hut
      have hlt := (List.pairwise_cons.mp hys').1 u hu
      rw [hsame u hut, Function.update_self] at hlt
      exact iff_of_false (hty u hu).not_gt hlt.not_gt
  · intro hplace
    refine List.pairwise_append.mpr ⟨?_, List.pairwise_cons.mpr ⟨fun b hb => ?_, ?_⟩, fun a ha b hb => ?_⟩
    · exact (sortedBy_congr fun a ha => hsame a (hnx a ha)).mpr hxs
    · have hmem : b ∈ xs ++ t :: ys := by simp [hb]
      have hnot := (hplace b hmem (hny b hb)).not.mp (hty b hb).not_gt
      rw [hsame b (hny b hb), Function.update_self]
      exact lt_of_le_of_ne (not_lt.mp hnot) (hx b hmem (hny b hb)).symm
    · exact (sortedBy_congr fun b hb => hsame b (hny b hb)).mpr hys
    · rw [hsame a (hnx a ha)]
      by_cases hbt : b = t
      · rw [hbt, Function.update_self]
        exact (hplace a (by simp [ha]) (hnx a ha)).mp (hcross a ha t List.mem_cons_self)
      · rw [hsame b hbt]
        exact hcross a ha b hb

end RtThread.Lib.Sorted
