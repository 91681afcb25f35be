import Mathlib

/-!
# The shell: strings in arrays of bytes
-/

namespace RtThread.Shell

abbrev Byte := BitVec 8

/-- `rt_strlen`. -/
def rtStrlen (s : List Byte) : ℕ := (s.takeWhile (· ≠ 0)).length

/-- `rt_strncmp` (`kservice.c:433-445`), whose result is a `signed char`. -/
def rtStrncmp : ℕ → List Byte → List Byte → Byte
  | 0, _, _ => 0
  | count + 1, cs, ct =>
    let res := cs.headD 0 - ct.headD 0
    if res ≠ 0 ∨ cs.headD 0 = 0 then res else rtStrncmp count cs.tail ct.tail

def zeros (n : ℕ) : List Byte := List.replicate n 0

theorem zeros_succ (n : ℕ) : zeros (n + 1) = 0 :: zeros n := rfl

theorem rtStrncmp_cons (n : ℕ) (a b : Byte) (s t : List Byte) :
    rtStrncmp (n + 1) (a :: s) (b :: t) = if a = b ∧ a ≠ 0 then rtStrncmp n s t else a - b := by
  change (if a - b ≠ 0 ∨ a = 0 then a - b else rtStrncmp n s t) = _
  by_cases h : a = b ∧ a ≠ 0
  · have hsub : ¬(a - b ≠ 0 ∨ a = 0) := by
      intro hor
      rcases hor with hne | hzero
      · exact hne (by rw [h.1]; bv_omega)
      · exact h.2 hzero
    rw [if_neg hsub, if_pos h]
  · have hsub : a - b ≠ 0 ∨ a = 0 := by
      by_cases hzero : a = 0
      · exact Or.inr hzero
      · refine Or.inl fun hne => h ⟨?_, hzero⟩
        bv_omega
    rw [if_pos hsub, if_neg h]

theorem sub_ne_zero_of_ne {a b : Byte} (h : a ≠ b) : a - b ≠ 0 := by
  intro hzero
  exact h (by bv_omega)

theorem rtStrncmp_eq_zero_iff {u v : List Byte} (hu : ∀ b ∈ u, b ≠ 0) (hv : ∀ b ∈ v, b ≠ 0) {n : ℕ}
    (hun : u.length ≤ n) (hvn : v.length ≤ n) :
    rtStrncmp n (u ++ zeros (n - u.length)) (v ++ zeros (n - v.length)) = 0 ↔ u = v := by
  induction n generalizing u v with
  | zero =>
    obtain rfl := List.eq_nil_of_length_eq_zero (Nat.le_zero.mp hun)
    obtain rfl := List.eq_nil_of_length_eq_zero (Nat.le_zero.mp hvn)
    exact iff_of_true rfl rfl
  | succ n ih =>
    cases u with
    | nil =>
      cases v with
      | nil =>
        refine iff_of_true ?_ rfl
        rw [List.nil_append, List.length_nil, Nat.sub_zero, zeros_succ, rtStrncmp_cons, if_neg fun h => h.2 rfl]
        rfl
      | cons b v =>
        refine iff_of_false ?_ (List.cons_ne_nil b v).symm
        have hb : (0 : Byte) ≠ b := (hv b List.mem_cons_self).symm
        rw [List.nil_append, List.length_nil, Nat.sub_zero, zeros_succ, List.cons_append, rtStrncmp_cons,
          if_neg fun h => hb h.1]
        exact sub_ne_zero_of_ne hb
    | cons a u =>
      have ha : a ≠ 0 := hu a List.mem_cons_self
      cases v with
      | nil =>
        refine iff_of_false ?_ (List.cons_ne_nil a u)
        rw [List.nil_append, List.length_nil, Nat.sub_zero, zeros_succ, List.cons_append, rtStrncmp_cons,
          if_neg fun h => ha h.1]
        exact sub_ne_zero_of_ne ha
      | cons b v =>
        rw [List.length_cons] at hun hvn
        have hrest := ih (fun c hc => hu c (List.mem_cons_of_mem a hc)) (fun c hc => hv c (List.mem_cons_of_mem b hc))
          (Nat.le_of_succ_le_succ hun) (Nat.le_of_succ_le_succ hvn)
        rw [List.cons_append, List.cons_append, rtStrncmp_cons, List.length_cons, List.length_cons,
          Nat.add_sub_add_right, Nat.add_sub_add_right, List.cons.injEq]
        by_cases hab : a = b
        · rw [if_pos ⟨hab, ha⟩, hrest]
          exact (and_iff_right hab).symm
        · rw [if_neg fun h => hab h.1]
          exact iff_of_false (sub_ne_zero_of_ne hab) fun h => hab h.1

end RtThread.Shell
