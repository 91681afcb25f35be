import Mathlib

/-!
# The latest entries of a log without its repetitions

`recent n l` is what is left of `l`, from the back and without consecutive duplicates, in `n` entries.
-/

namespace RtThread.Lib.Recent

variable {α : Type*}

theorem rtake_of_length_le {n : ℕ} {l : List α} (h : l.length ≤ n) : l.rtake n = l := by
  rw [List.rtake, Nat.sub_eq_zero_of_le h, List.drop_zero]

theorem length_rtake (n : ℕ) (l : List α) : (l.rtake n).length = min n l.length := by
  rw [List.rtake, List.length_drop]
  omega

theorem rtake_rtake {m n : ℕ} (h : m ≤ n) (l : List α) : (l.rtake n).rtake m = l.rtake m := by
  rw [List.rtake, length_rtake, List.rtake, List.drop_drop, List.rtake]
  congr 1
  omega

theorem getLast?_rtake {n : ℕ} (hn : 0 < n) (l : List α) : (l.rtake n).getLast? = l.getLast? := by
  obtain ⟨n, rfl⟩ := Nat.exists_eq_succ_of_ne_zero (Nat.ne_of_gt hn)
  induction l using List.reverseRecOn with
  | nil => rw [List.rtake_nil]
  | append_singleton l x _ => rw [List.rtake_concat_succ, List.getLast?_concat, List.getLast?_concat]

variable [DecidableEq α]

def recent (n : ℕ) (l : List α) : List α := (l.destutter (· ≠ ·)).rtake n

/-- A new entry, unless it repeats the last one. -/
def push (n : ℕ) (h : List α) (x : α) : List α := if h.getLast? = some x then h else (h ++ [x]).rtake n

theorem getLast?_destutter' (l : List α) (a : α) : (l.destutter' (· ≠ ·) a).getLast? = (a :: l).getLast? := by
  induction l generalizing a with
  | nil => rfl
  | cons b l ih =>
    by_cases hab : a = b
    · subst hab
      rw [List.destutter'_cons_neg l (not_not.mpr rfl), ih a, List.getLast?_cons_cons]
    · have hne : l.destutter' (· ≠ ·) b ≠ [] := List.destutter'_ne_nil l (· ≠ ·)
      rw [List.destutter'_cons_pos l hab, List.getLast?_cons_cons, ← ih b]
      cases hd : l.destutter' (· ≠ ·) b with
      | nil => exact absurd hd hne
      | cons c m => exact List.getLast?_cons_cons

theorem getLast?_destutter (l : List α) : (l.destutter (· ≠ ·)).getLast? = l.getLast? := by
  cases l with
  | nil => rfl
  | cons a l => exact getLast?_destutter' l a

theorem destutter'_concat (l : List α) (a x : α) : (l ++ [x]).destutter' (· ≠ ·) a =
    if (a :: l).getLast? = some x then l.destutter' (· ≠ ·) a else l.destutter' (· ≠ ·) a ++ [x] := by
  induction l generalizing a with
  | nil =>
    by_cases hax : a = x
    · subst hax
      have hlast : [a].getLast? = some a := rfl
      rw [if_pos hlast]
      exact if_neg (not_not.mpr rfl)
    · have hlast : ¬[a].getLast? = some x := fun h => hax (Option.some.inj h)
      rw [if_neg hlast]
      exact if_pos hax
  | cons b l ih =>
    rw [List.cons_append, List.getLast?_cons_cons]
    by_cases hab : a = b
    · subst hab
      rw [List.destutter'_cons_neg _ (not_not.mpr rfl), List.destutter'_cons_neg _ (not_not.mpr rfl), ih a]
    · rw [List.destutter'_cons_pos _ hab, List.destutter'_cons_pos _ hab, ih b, List.cons_append, ← apply_ite]

theorem destutter_concat (l : List α) (x : α) : (l ++ [x]).destutter (· ≠ ·) =
    if l.getLast? = some x then l.destutter (· ≠ ·) else l.destutter (· ≠ ·) ++ [x] := by
  cases l with
  | nil => rfl
  | cons a l => exact destutter'_concat l a x

theorem recent_concat {n : ℕ} (hn : 0 < n) (l : List α) (x : α) : recent n (l ++ [x]) = push n (recent n l) x := by
  obtain ⟨n, rfl⟩ := Nat.exists_eq_succ_of_ne_zero (Nat.ne_of_gt hn)
  rw [recent, push, recent, getLast?_rtake hn, getLast?_destutter, destutter_concat]
  split
  · rfl
  · rw [List.rtake_concat_succ, List.rtake_concat_succ, rtake_rtake (Nat.le_succ n)]

theorem mem_of_mem_recent {n : ℕ} {l : List α} {x : α} (h : x ∈ recent n l) : x ∈ l :=
  (List.destutter_sublist (· ≠ ·) l).subset (List.mem_of_mem_drop h)

theorem recent_isChain (n : ℕ) (l : List α) : (recent n l).IsChain (· ≠ ·) :=
  (List.isChain_destutter (· ≠ ·) l).drop _

end RtThread.Lib.Recent
