import Mathlib

/-!
# Numbers as texts

Reading a number in a base from the characters of its digits, the most significant first, and taking the blanks off
both ends of a text.
-/

namespace RtThread.Lib.Numerals

/-! ### Digits -/

def digitValue (base : ℕ) (ch : Char) : Option ℕ :=
  let d := if ch.isDigit = true then ch.toNat - 48
    else if 'a' ≤ ch ∧ ch ≤ 'f' then ch.toNat - 87
    else if 'A' ≤ ch ∧ ch ≤ 'F' then ch.toNat - 55
    else base
  if d < base then some d else none

/-- A digit that the base does not have ends the reading without a result. -/
def readDigits (base : ℕ) : ℕ → List Char → Option ℕ
  | n, [] => some n
  | n, ch :: l => (digitValue base ch).bind fun d => readDigits base (n * base + d) l

theorem readDigits_map {base : ℕ} {digit : ℕ → Char} {l : List ℕ}
    (h : ∀ d ∈ l, digitValue base (digit d) = if d < base then some d else none) (n : ℕ) :
    readDigits base n (l.map digit) =
      if ∀ d ∈ l, d < base then some (l.foldl (fun n d => n * base + d) n) else none := by
  induction l generalizing n with
  | nil => rw [if_pos fun _ hd => absurd hd List.not_mem_nil]; rfl
  | cons d l ih =>
    have hd := h d List.mem_cons_self
    rw [List.map_cons, readDigits, hd]
    by_cases hlt : d < base
    · rw [if_pos hlt, Option.bind_some, ih fun d hd => h d (List.mem_cons_of_mem _ hd)]
      simp only [List.forall_mem_cons, hlt, true_and, List.foldl_cons]
    · rw [if_neg hlt, Option.bind_none, if_neg fun hall => hlt (hall d List.mem_cons_self)]

theorem foldl_digits (base : ℕ) (ds : List ℕ) :
    ds.reverse.foldl (fun n d => n * base + d) 0 = Nat.ofDigits base ds := by
  rw [List.foldl_reverse]
  induction ds with
  | nil => rfl
  | cons d ds ih =>
    rw [List.foldr_cons, ih, Nat.ofDigits_cons]
    ring

/-- The digits of a number are those of a smaller number in a smaller base, if there is more than one of them. -/
theorem ofDigits_digits_lt {p q n : ℕ} (hpq : p < q) (hq : 1 < q) (hn : q ≤ n) :
    Nat.ofDigits p (Nat.digits q n) < n := by
  have hpos : 0 < n / q := Nat.div_pos hn (by omega)
  have hrest : Nat.ofDigits p (Nat.digits q (n / q)) ≤ n / q :=
    (Nat.ofDigits_monotone _ hpq.le).trans (Nat.ofDigits_digits q (n / q)).le
  rw [Nat.digits_def' hq (by omega), Nat.ofDigits_cons]
  calc n % q + p * Nat.ofDigits p (Nat.digits q (n / q)) ≤ n % q + p * (n / q) :=
        Nat.add_le_add_left (Nat.mul_le_mul_left p hrest) _
    _ < n % q + q * (n / q) := Nat.add_lt_add_left (Nat.mul_lt_mul_of_pos_right hpq hpos) _
    _ = n := Nat.mod_add_div n q

/-- The digits in one base mean the same in a smaller one only if there is just one, and the smaller base has it. -/
theorem digits_mean_iff {p q n : ℕ} (hpq : p < q) (hq : 1 < q) (hn : 0 < n) :
    (∀ d ∈ Nat.digits q n, d < p) ∧ Nat.ofDigits p (Nat.digits q n) = n ↔ n < p := by
  constructor
  · rintro ⟨hall, hvalue⟩
    by_contra hge
    by_cases hlt : n < q
    · rw [Nat.digits_of_lt q n hn.ne' hlt] at hall
      exact hge (hall n (List.mem_singleton_self n))
    · exact absurd hvalue (ofDigits_digits_lt hpq hq (not_lt.mp hlt)).ne
  · intro hlt
    rw [Nat.digits_of_lt q n hn.ne' (hlt.trans hpq)]
    exact ⟨fun d hd => by rwa [List.mem_singleton.mp hd], Nat.ofDigits_singleton⟩

/-! ### Blanks -/

def trim (l : List Char) : List Char := (l.dropWhile fun ch => ch = ' ').rdropWhile fun ch => ch = ' '

theorem dropWhile_blanks {l : List Char} (h : ∀ ch ∈ l.head?, ch ≠ ' ') (n : ℕ) :
    (List.replicate n ' ' ++ l).dropWhile (fun ch => ch = ' ') = l := by
  induction n with
  | zero =>
    cases l with
    | nil => rfl
    | cons ch l =>
      have hch : ¬decide (ch = ' ') = true := fun he => h ch rfl (of_decide_eq_true he)
      exact List.dropWhile_cons_of_neg hch
  | succ n ih =>
    rw [List.replicate_succ, List.cons_append, List.dropWhile_cons_of_pos rfl, ih]

theorem trim_blanks {l : List Char} (hhead : ∀ ch ∈ l.head?, ch ≠ ' ') (hlast : ∀ ch ∈ l.getLast?, ch ≠ ' ')
    (hne : l ≠ []) (n m : ℕ) : trim (List.replicate n ' ' ++ l ++ List.replicate m ' ') = l := by
  have hfront : ∀ ch ∈ (l ++ List.replicate m ' ').head?, ch ≠ ' ' := by
    rw [List.head?_append_of_ne_nil l hne]
    exact hhead
  have hback : ∀ ch ∈ l.reverse.head?, ch ≠ ' ' := by
    rw [List.head?_reverse]
    exact hlast
  rw [trim, List.append_assoc, dropWhile_blanks hfront, List.rdropWhile, List.reverse_append, List.reverse_replicate,
    dropWhile_blanks hback, List.reverse_reverse]

end RtThread.Lib.Numerals
