import Mathlib

/-!
# Cyclic redundancy checks, one bit at a time

A message is divided by a polynomial bit by bit, the most significant bit of the register first. The
polynomial is given without its leading coefficient, and its degree is the width of the register.
-/

namespace RtThread.Lib.Crc

variable {w : ℕ} (poly : BitVec w)

/-- The register without a bit of the message. -/
def shift (c : BitVec w) : BitVec w := (c <<< 1) ^^^ if c.msb then poly else 0

def shifts : ℕ → BitVec w → BitVec w
  | 0, c => c
  | n + 1, c => shifts n (shift poly c)

/-- The register takes in one bit of the message. -/
def feedBit (c : BitVec w) (bit : Bool) : BitVec w := (c <<< 1) ^^^ if c.msb ^^ bit then poly else 0

def feedBits (c : BitVec w) (bits : List Bool) : BitVec w := bits.foldl (feedBit poly) c

/-- The bits of a word, the most significant first. -/
def bitsOf {n : ℕ} (v : BitVec n) : List Bool := (List.range n).map v.getMsbD

/-- The bits stand at the most significant end of a word. -/
def topOf : List Bool → BitVec w
  | [] => 0
  | bit :: bits => (topOf bits >>> 1) ^^^ if bit then BitVec.twoPow w (w - 1) else 0

variable {poly}

/-! ### Shifts are linear -/

theorem shift_xor (a b : BitVec w) : shift poly (a ^^^ b) = shift poly a ^^^ shift poly b := by
  have hpoly : (if (a ^^^ b).msb then poly else 0) = (if a.msb then poly else 0) ^^^ if b.msb then poly else 0 := by
    rw [BitVec.msb_xor]
    cases a.msb with
    | false => cases b.msb <;> simp
    | true => cases b.msb <;> simp
  rw [shift, shift, shift, hpoly, BitVec.shiftLeft_xor_distrib]
  ac_rfl

theorem shifts_xor (n : ℕ) (a b : BitVec w) : shifts poly n (a ^^^ b) = shifts poly n a ^^^ shifts poly n b := by
  induction n generalizing a b with
  | zero => rfl
  | succ n ih => rw [shifts, shift_xor, ih, shifts, shifts]

theorem shifts_zero (n : ℕ) : shifts poly n (0 : BitVec w) = 0 := by
  induction n with
  | zero => rfl
  | succ n ih =>
    have hzero : shift poly (0 : BitVec w) = 0 := by simp [shift]
    rw [shifts, hzero, ih]

/-- While its leading bits are clear, the register only moves. -/
theorem shifts_of_clear (n : ℕ) (c : BitVec w) (hclear : ∀ i < n, c.getMsbD i = false) : shifts poly n c = c <<< n := by
  induction n generalizing c with
  | zero => rw [shifts, BitVec.shiftLeft_zero]
  | succ n ih =>
    have hmsb : c.msb = false := hclear 0 (Nat.succ_pos n)
    have hshift : shift poly c = c <<< 1 := by simp [shift, hmsb]
    have hrest : ∀ i < n, (c <<< 1).getMsbD i = false := by
      intro i hi
      rw [BitVec.getMsbD_shiftLeft, Nat.add_comm]
      exact hclear (1 + i) (by omega)
    rw [shifts, hshift, ih _ hrest, ← BitVec.shiftLeft_add, Nat.add_comm]

/-! ### Feeding a word -/

theorem feedBits_append (c : BitVec w) (bits bits' : List Bool) :
    feedBits poly c (bits ++ bits') = feedBits poly (feedBits poly c bits) bits' := List.foldl_append

theorem getLsbD_topOf (bits : List Bool) (i : ℕ) (hi : i + bits.length < w) : (topOf bits : BitVec w).getLsbD i = false := by
  induction bits generalizing i with
  | nil => simp [topOf]
  | cons bit bits ih =>
    rw [List.length_cons] at hi
    have hrest := ih (1 + i) (by omega)
    rw [topOf, BitVec.getLsbD_xor, BitVec.getLsbD_ushiftRight, hrest]
    cases bit with
    | false => simp
    | true => simp [BitVec.getLsbD_twoPow]; omega

theorem shift_ushiftRight (c : BitVec w) (hlow : c.getLsbD 0 = false) : shift poly (c >>> 1) = c := by
  have hmsb : (c >>> 1).msb = false := by simp
  rw [shift, hmsb]
  ext i hi
  cases i with
  | zero => simpa [hi] using hlow.symm
  | succ i => simp [Nat.add_comm 1 i, hi]

theorem msb_top (hw : 0 < w) (bit : Bool) : (if bit then BitVec.twoPow w (w - 1) else 0 : BitVec w).msb = bit := by
  cases bit with
  | false => simp
  | true => simp [BitVec.msb_twoPow, hw]

theorem shiftLeft_top (hw : 0 < w) (bit : Bool) : (if bit then BitVec.twoPow w (w - 1) else 0 : BitVec w) <<< 1 = 0 := by
  cases bit with
  | false => simp
  | true =>
    ext i hi
    simp [BitVec.getElem_twoPow]
    omega

/-- A bit of the message is one at the top of the register. -/
theorem shift_xor_top (hw : 0 < w) (c : BitVec w) (bit : Bool) :
    shift poly (c ^^^ if bit then BitVec.twoPow w (w - 1) else 0) = feedBit poly c bit := by
  rw [shift, BitVec.shiftLeft_xor_distrib, shiftLeft_top hw, BitVec.msb_xor, msb_top hw, feedBit]
  simp only [BitVec.ofNat_eq_ofNat, BitVec.xor_zero]

/-- Bits that fit into the register are taken in by so many shifts. -/
theorem feedBits_eq (hw : 0 < w) (bits : List Bool) (hlen : bits.length ≤ w) (c : BitVec w) :
    feedBits poly c bits = shifts poly bits.length (c ^^^ topOf bits) := by
  induction bits generalizing c with
  | nil => simp [feedBits, topOf, shifts]
  | cons bit bits ih =>
    rw [List.length_cons] at hlen
    have hlow : (topOf bits : BitVec w).getLsbD 0 = false := getLsbD_topOf bits 0 (by omega)
    have hsplit : c ^^^ topOf (bit :: bits) = (c ^^^ if bit then BitVec.twoPow w (w - 1) else 0) ^^^ (topOf bits >>> 1) := by
      rw [topOf]
      ac_rfl
    calc feedBits poly c (bit :: bits)
        = feedBits poly (feedBit poly c bit) bits := rfl
      _ = shifts poly bits.length (feedBit poly c bit ^^^ topOf bits) := ih (by omega) _
      _ = shifts poly (bits.length + 1) (c ^^^ topOf (bit :: bits)) := by
        rw [shifts, hsplit, shift_xor, shift_xor_top hw, shift_ushiftRight _ hlow]

/-! ### Words -/

theorem length_bitsOf {n : ℕ} (v : BitVec n) : (bitsOf v).length = n := by
  rw [bitsOf, List.length_map, List.length_range]

theorem getMsbD_topOf (bits : List Bool) (hlen : bits.length ≤ w) (i : ℕ) :
    (topOf bits : BitVec w).getMsbD i = bits.getD i false := by
  induction bits generalizing i with
  | nil => simp [topOf]
  | cons bit bits ih =>
    rw [List.length_cons] at hlen
    rw [topOf, BitVec.getMsbD_xor]
    cases i with
    | zero =>
      have htop := msb_top (show 0 < w by omega) bit
      rw [BitVec.msb] at htop
      rw [htop]
      simp
    | succ i =>
      have hnone : (if bit then BitVec.twoPow w (w - 1) else 0 : BitVec w).getMsbD (i + 1) = false := by
        cases bit with
        | false => simp
        | true => simp [BitVec.getMsbD_twoPow]; omega
      rw [hnone, BitVec.getMsbD_ushiftRight]
      rw [ih (by omega), List.getD_cons_succ, Nat.add_sub_cancel]
      by_cases hi : i + 1 < w
      · simp [hi]
      · have hpast : bits.getD i false = false := List.getD_eq_default _ _ (by omega)
        rw [hpast]
        simp

theorem topOf_bitsOf {n : ℕ} (hn : n ≤ w) (v : BitVec n) : (topOf (bitsOf v) : BitVec w) = v.setWidth w <<< (w - n) := by
  apply BitVec.eq_of_getMsbD_eq
  intro i hi
  rw [getMsbD_topOf _ (by rw [length_bitsOf]; exact hn), bitsOf, BitVec.getMsbD_shiftLeft, BitVec.getMsbD_setWidth]
  by_cases hlt : i < n
  · have hplace : i + (w - n) + n - w = i := by omega
    simp [List.getD_eq_getElem?_getD, hlt, hplace]
  · have hpast : v.getMsbD (i + (w - n) + n - w) = false := BitVec.getMsbD_of_ge v _ (by omega)
    simp [List.getD_eq_getElem?_getD, hlt, hpast]

/-- A word takes itself out of the register. -/
theorem feedBits_bitsOf_self (c : BitVec w) : feedBits poly c (bitsOf c) = 0 := by
  have htop : topOf (bitsOf c) = c := by
    rw [topOf_bitsOf le_rfl, BitVec.setWidth_eq, Nat.sub_self, BitVec.shiftLeft_zero]
  have hlen := length_bitsOf c
  rcases Nat.eq_zero_or_pos w with rfl | hw
  · exact Subsingleton.elim _ _
  · rw [feedBits_eq hw _ hlen.le, htop, BitVec.xor_self]
    exact shifts_zero _

end RtThread.Lib.Crc
