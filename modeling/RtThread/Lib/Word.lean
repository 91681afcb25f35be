import Mathlib

/-!
# Unsigned machine words as natural numbers

An unsigned `w`-bit variable is a natural number below `2 ^ w`; each operation
reduces its result modulo `2 ^ w`, as the C types do. The lemmas say when the
reduction has no effect.
-/

namespace RtThread.Lib.Word

/-- `x++` on a `w`-bit word. -/
def inc (w x : ℕ) : ℕ := (x + 1) % 2 ^ w

/-- `x--` on a `w`-bit word: zero wraps to the largest word. -/
def dec (w x : ℕ) : ℕ := if x = 0 then 2 ^ w - 1 else x - 1

theorem inc_lt (w x : ℕ) : inc w x < 2 ^ w := Nat.mod_lt _ (Nat.two_pow_pos w)

theorem dec_lt {w x : ℕ} (h : x < 2 ^ w) : dec w x < 2 ^ w := by
  unfold dec
  split <;> omega

theorem inc_of_lt {w x : ℕ} (h : x + 1 < 2 ^ w) : inc w x = x + 1 := Nat.mod_eq_of_lt h

theorem inc_max {w x : ℕ} (h : x + 1 = 2 ^ w) : inc w x = 0 := by
  rw [inc, h, Nat.mod_self]

theorem dec_of_pos {w x : ℕ} (hpos : 0 < x) : dec w x = x - 1 := if_neg (by omega)

theorem eq_one_of_dec {w x : ℕ} (hpos : 0 < x) (h : dec w x = 0) : x = 1 := by
  rw [dec_of_pos hpos] at h
  omega

theorem le_inc_iff {w x : ℕ} (h : x < 2 ^ w) (hw : 0 < w) : x ≤ inc w x ↔ x + 1 < 2 ^ w := by
  constructor
  · intro hle
    by_contra hge
    have hmax : x + 1 = 2 ^ w := by omega
    rw [inc_max hmax] at hle
    have htwo : 2 ^ 1 ≤ 2 ^ w := Nat.pow_le_pow_right (by omega) hw
    omega
  · intro hlt
    rw [inc_of_lt hlt]
    omega

/-- `(x + a - 1) & ~(a - 1)` on 32-bit words, for the power of two `a = 2 ^ k`: the low
`k` bits of the sum are cleared. -/
def alignUp (k x : ℕ) : ℕ := (x + (2 ^ k - 1)) % 2 ^ 32 / 2 ^ k * 2 ^ k

def add (w a b : ℕ) : ℕ := (a + b) % 2 ^ w

def sub (w a b : ℕ) : ℕ := (a + 2 ^ w - b) % 2 ^ w

theorem add_of_lt {w a b : ℕ} (h : a + b < 2 ^ w) : add w a b = a + b := Nat.mod_eq_of_lt h

theorem add_add_of_lt {w a b c : ℕ} (h : a + b + c < 2 ^ w) : add w (add w a b) c = a + b + c := by
  rw [add_of_lt (show a + b < 2 ^ w by omega), add_of_lt h]

theorem sub_of_le {w a b : ℕ} (hle : b ≤ a) (ha : a < 2 ^ w) : sub w a b = a - b := by
  rw [sub, show a + 2 ^ w - b = a - b + 2 ^ w by omega, Nat.add_mod_right]
  exact Nat.mod_eq_of_lt (by omega)

theorem dvd_alignUp (k x : ℕ) : 2 ^ k ∣ alignUp k x := Nat.dvd_mul_left _ _

theorem alignUp_spec {k x : ℕ} (h : x + (2 ^ k - 1) < 2 ^ 32) :
    x ≤ alignUp k x ∧ alignUp k x < x + 2 ^ k := by
  have hpos : 0 < 2 ^ k := Nat.two_pow_pos k
  have hdiv := Nat.div_add_mod (x + (2 ^ k - 1)) (2 ^ k)
  have hlt := Nat.mod_lt (x + (2 ^ k - 1)) hpos
  rw [alignUp, Nat.mod_eq_of_lt h, Nat.mul_comm]
  omega

theorem add_le_of_dvd {a x y : ℕ} (hx : a ∣ x) (hy : a ∣ y) (hlt : x < y) : x + a ≤ y := by
  obtain ⟨i, rfl⟩ := hx
  obtain ⟨j, rfl⟩ := hy
  have hij : i < j := Nat.lt_of_mul_lt_mul_left hlt
  calc a * i + a = a * (i + 1) := by ring
    _ ≤ a * j := Nat.mul_le_mul_left a hij

/-- An aligned size can be aligned again. -/
theorem alignUp_add_le {k : ℕ} (hk : k ≤ 32) (x : ℕ) : alignUp k x + 2 ^ k ≤ 2 ^ 32 := by
  have hlt : alignUp k x < 2 ^ 32 := (Nat.div_mul_le_self _ _).trans_lt (Nat.mod_lt _ (Nat.two_pow_pos 32))
  exact add_le_of_dvd (dvd_alignUp k x) (pow_dvd_pow 2 hk) hlt

/-- A size so large that it wraps is aligned to 0. -/
theorem alignUp_wrap {k x : ℕ} (hx : x < 2 ^ 32) (h : 2 ^ 32 ≤ x + (2 ^ k - 1)) (hk : k ≤ 32) : alignUp k x = 0 := by
  have hpow : 2 ^ k ≤ 2 ^ 32 := Nat.pow_le_pow_right (by omega) hk
  have hmod : (x + (2 ^ k - 1)) % 2 ^ 32 = x + (2 ^ k - 1) - 2 ^ 32 := by
    rw [Nat.mod_eq_sub_mod h, Nat.mod_eq_of_lt (by omega)]
  rw [alignUp, hmod, Nat.div_eq_of_lt (by omega), Nat.zero_mul]

/-- `x & ~(2 ^ a - 1)` clears the low bits of a word. -/
theorem and_not_low {w a x : ℕ} (hx : x < 2 ^ w) (ha : a ≤ w) : x &&& (2 ^ w - 1 - (2 ^ a - 1)) = x / 2 ^ a * 2 ^ a := by
  have hpos := Nat.two_pow_pos a
  have hle : 2 ^ a ≤ 2 ^ w := Nat.pow_le_pow_right (by omega) ha
  apply Nat.eq_of_testBit_eq
  intro i
  rw [Nat.testBit_and, show 2 ^ w - 1 - (2 ^ a - 1) = 2 ^ w - (2 ^ a - 1 + 1) by omega,
    Nat.testBit_two_pow_sub_succ (by omega), Nat.testBit_two_pow_sub_one, Nat.testBit_mul_two_pow,
    Nat.testBit_div_two_pow]
  by_cases hi : i < a
  · simp [hi, Nat.not_le.mpr hi]
  · have hle : a ≤ i := not_lt.mp hi
    have hbit : x.testBit i = true → i < w := by
      intro hone
      by_contra hge
      have hlarge : x < 2 ^ i := hx.trans_le (Nat.pow_le_pow_right (by omega) (not_lt.mp hge))
      rw [Nat.testBit_eq_false_of_lt hlarge] at hone
      cases hone
    simp only [hi, hle, decide_false, decide_true, Bool.not_false, Bool.and_true, Bool.true_and, Nat.sub_add_cancel hle]
    cases hb : x.testBit i with
    | false => rfl
    | true => simp [hbit hb]

end RtThread.Lib.Word
