import RtThread.Shell.Strings

/-!
# Comparing strings (`kservice.c:433-463`)

A list of bytes is the memory from a pointer on, and the string in it ends before its first NUL. Whether
`char` is signed depends on the compiler.
-/

namespace RtThread.Kservice.Compare

open RtThread.Shell

def charVal (signed : Bool) (b : Byte) : ℤ := if signed = true then b.toInt else b.toNat

/-- `rt_strcmp` (`kservice.c:457-463`). -/
def rtStrcmp (signed : Bool) : List Byte → List Byte → ℤ
  | [], ct => charVal signed 0 - charVal signed (ct.headD 0)
  | c :: cs, ct =>
    if c ≠ 0 ∧ c = ct.headD 0 then rtStrcmp signed cs ct.tail else charVal signed c - charVal signed (ct.headD 0)

/-- The characters of a string, and its terminator. -/
def chars (s : List Byte) : List Byte := s.takeWhile (· ≠ 0) ++ [0]

/-- The difference of the first differing characters within the first `n`, and 0 if there are none. -/
def firstDiff (signed : Bool) (n : ℕ) (s t : List Byte) : ℤ :=
  ((((chars s).take n).zip ((chars t).take n)).find? fun p => p.1 ≠ p.2).elim 0 fun p =>
    charVal signed p.1 - charVal signed p.2

/-- What the result of `rt_strncmp` says of two strings: which of them comes first, the same when they are
exchanged, and the same as `rt_strcmp` says. -/
structure Ordered (signed : Bool) (n : ℕ) (s t : List Byte) : Prop where
  sign_eq : (rtStrncmp n s t).toInt.sign = (firstDiff signed n s t).sign
  antisymm : (rtStrncmp n t s).toInt.sign = -(rtStrncmp n s t).toInt.sign
  strcmp : rtStrlen s < n → rtStrlen t < n → (rtStrncmp n s t).toInt.sign = (rtStrcmp signed s t).sign

variable {signed : Bool} {n : ℕ} {s t u : List Byte}

theorem charVal_inj {a b : Byte} : charVal signed a = charVal signed b ↔ a = b := by
  cases signed with
  | false => simp [charVal, BitVec.toNat_inj]
  | true => simp [charVal, BitVec.toInt_inj]

theorem charVal_mod (b : Byte) : BitVec.ofInt 8 (charVal signed b) = b := by
  cases signed with
  | false => simp [charVal]
  | true => simp [charVal]

theorem chars_eq (s : List Byte) : chars s = s.headD 0 :: if s.headD 0 = 0 then [] else chars s.tail := by
  cases s with
  | nil => rfl
  | cons a s =>
    rw [List.headD_cons, List.tail_cons, chars]
    by_cases ha : a = 0
    · rw [List.takeWhile_cons_of_neg (by simpa using ha), if_pos ha, ha]
      rfl
    · rw [List.takeWhile_cons_of_pos (by simpa using ha), if_neg ha]
      rfl

theorem firstDiff_zero : firstDiff signed 0 s t = 0 := rfl

theorem firstDiff_succ (n : ℕ) (s t : List Byte) : firstDiff signed (n + 1) s t =
    if s.headD 0 ≠ t.headD 0 then charVal signed (s.headD 0) - charVal signed (t.headD 0)
    else if s.headD 0 = 0 then 0 else firstDiff signed n s.tail t.tail := by
  rw [firstDiff, chars_eq s, chars_eq t, List.take_succ_cons, List.take_succ_cons, List.zip_cons_cons]
  by_cases hhead : s.headD 0 = t.headD 0
  · rw [List.find?_cons_of_neg (by simpa using hhead), if_neg (not_not.mpr hhead)]
    by_cases hzero : s.headD 0 = 0
    · rw [if_pos hzero, if_pos hzero, List.take_nil, List.zip_nil_left]
      rfl
    · rw [if_neg hzero, if_neg hzero, if_neg (hhead ▸ hzero)]
      rfl
  · rw [List.find?_cons_of_pos (by simpa using hhead), if_pos hhead]
    rfl

theorem rtStrncmp_eq (n : ℕ) (s t : List Byte) : rtStrncmp n s t = BitVec.ofInt 8 (firstDiff signed n s t) := by
  induction n generalizing s t with
  | zero => rfl
  | succ n ih =>
    have hsub : s.headD 0 - t.headD 0 = BitVec.ofInt 8 (charVal signed (s.headD 0) - charVal signed (t.headD 0)) := by
      rw [Int.sub_eq_add_neg, BitVec.ofInt_add, BitVec.ofInt_neg, charVal_mod, charVal_mod, BitVec.sub_eq_add_neg]
    rw [firstDiff_succ, rtStrncmp]
    by_cases hhead : s.headD 0 = t.headD 0
    · have hzero : s.headD 0 - t.headD 0 = 0 := by rw [hhead]; exact BitVec.sub_self _
      rw [if_neg (not_not.mpr hhead)]
      by_cases hend : s.headD 0 = 0
      · rw [if_pos (Or.inr hend), if_pos hend, hzero]
        rfl
      · rw [if_neg (fun h => h.elim (fun hne => hne hzero) hend), if_neg hend]
        exact ih s.tail t.tail
    · rw [if_pos (Or.inl (sub_ne_zero.mpr hhead)), if_pos hhead]
      exact hsub

theorem firstDiff_comm (n : ℕ) (s t : List Byte) : firstDiff signed n t s = -firstDiff signed n s t := by
  induction n generalizing s t with
  | zero => rfl
  | succ n ih =>
    rw [firstDiff_succ, firstDiff_succ, ih]
    by_cases hhead : s.headD 0 = t.headD 0
    · rw [if_neg (not_not.mpr hhead.symm), if_neg (not_not.mpr hhead), hhead]
      split
      · rfl
      · rfl
    · rw [if_pos (Ne.symm hhead), if_pos hhead]
      omega

theorem rtStrlen_pos (h : s.headD 0 ≠ 0) : rtStrlen s = rtStrlen s.tail + 1 := by
  cases s with
  | nil => exact absurd rfl h
  | cons a s =>
    rw [rtStrlen, List.takeWhile_cons_of_pos (by simpa using h)]
    rfl

theorem rtStrcmp_eq_headD (s t : List Byte) : rtStrcmp signed s t =
    if s.headD 0 ≠ 0 ∧ s.headD 0 = t.headD 0 then rtStrcmp signed s.tail t.tail
    else charVal signed (s.headD 0) - charVal signed (t.headD 0) := by
  cases s with
  | nil => exact (if_neg fun h => h.1 rfl).symm
  | cons a s => rfl

theorem rtStrcmp_eq_firstDiff (hs : rtStrlen s < n) (ht : rtStrlen t < n) :
    rtStrcmp signed s t = firstDiff signed n s t := by
  induction n generalizing s t with
  | zero => exact absurd hs (Nat.not_lt_zero _)
  | succ n ih =>
    rw [firstDiff_succ, rtStrcmp_eq_headD]
    by_cases hhead : s.headD 0 = t.headD 0
    · rw [if_neg (not_not.mpr hhead)]
      by_cases hend : s.headD 0 = 0
      · rw [if_neg fun h => h.1 hend, if_pos hend, hhead, sub_self]
      · have hs' := rtStrlen_pos hend
        have ht' := rtStrlen_pos (hhead ▸ hend)
        rw [if_pos ⟨hend, hhead⟩, if_neg hend]
        exact ih (by omega) (by omega)
    · rw [if_neg fun h => hhead h.2, if_pos hhead]

theorem charVal_sub_bounds (a b : Byte) :
    -256 < charVal signed a - charVal signed b ∧ charVal signed a - charVal signed b < 256 := by
  have ha := a.isLt
  have hb := b.isLt
  have ha' := @BitVec.toInt_lt 8 a
  have hb' := @BitVec.toInt_lt 8 b
  have ha'' := @BitVec.le_toInt 8 a
  have hb'' := @BitVec.le_toInt 8 b
  cases signed with
  | false =>
    simp only [charVal, Bool.false_eq_true, if_false]
    omega
  | true =>
    simp only [charVal, if_true]
    omega

theorem firstDiff_bounds (n : ℕ) (s t : List Byte) : -256 < firstDiff signed n s t ∧ firstDiff signed n s t < 256 := by
  induction n generalizing s t with
  | zero =>
    rw [firstDiff_zero]
    decide
  | succ n ih =>
    rw [firstDiff_succ]
    split
    · exact charVal_sub_bounds _ _
    · split
      · decide
      · exact ih s.tail t.tail

theorem firstDiff_trans (hst : firstDiff signed n s t ≤ 0) (htu : firstDiff signed n t u ≤ 0) :
    firstDiff signed n s u ≤ 0 := by
  induction n generalizing s t u with
  | zero => exact le_rfl
  | succ n ih =>
    rw [firstDiff_succ] at hst htu ⊢
    by_cases hheads : s.headD 0 = t.headD 0
    · by_cases hheadt : t.headD 0 = u.headD 0
      · rw [if_neg (not_not.mpr hheads)] at hst
        rw [if_neg (not_not.mpr hheadt)] at htu
        rw [if_neg (not_not.mpr (hheads.trans hheadt))]
        by_cases hend : s.headD 0 = 0
        · rw [if_pos hend]
        · rw [if_neg hend] at hst ⊢
          rw [if_neg (hheads ▸ hend)] at htu
          exact ih hst htu
      · rw [if_pos hheadt] at htu
        rw [hheads, if_pos hheadt]
        exact htu
    · rw [if_pos hheads] at hst
      by_cases hheadt : t.headD 0 = u.headD 0
      · rw [← hheadt, if_pos hheads]
        exact hst
      · have hne : charVal signed (s.headD 0) ≠ charVal signed (t.headD 0) := fun he => hheads (charVal_inj.mp he)
        rw [if_pos hheadt] at htu
        rw [if_pos fun he => ?_]
        · omega
        · rw [he] at hst hne
          omega

/-! ### What a `signed char` holds -/

/-- The difference and its opposite fit into a `signed char`. -/
def Fits (signed : Bool) (n : ℕ) (s t : List Byte) : Prop := |firstDiff signed n s t| ≤ 127

theorem toInt_rtStrncmp (h : Fits signed n s t) : (rtStrncmp n s t).toInt = firstDiff signed n s t := by
  have hlow := abs_le.mp h
  rw [@rtStrncmp_eq signed, BitVec.toInt_ofInt]
  exact Int.bmod_eq_of_le (by omega) (by omega)

theorem Fits.symm (h : Fits signed n s t) : Fits signed n t s := by
  rw [Fits, firstDiff_comm, abs_neg]
  exact h

theorem Fits.ordered (h : Fits signed n s t) : Ordered signed n s t where
  sign_eq := by rw [toInt_rtStrncmp h]
  antisymm := by rw [toInt_rtStrncmp h, toInt_rtStrncmp h.symm, firstDiff_comm, Int.sign_neg]
  strcmp hs ht := by rw [toInt_rtStrncmp h, rtStrcmp_eq_firstDiff hs ht]

theorem Ordered.fits (h : Ordered signed n s t) : Fits signed n s t := by
  have hbounds := @firstDiff_bounds signed n s t
  have hsign := h.sign_eq
  have hanti := h.antisymm
  rw [@rtStrncmp_eq signed, BitVec.toInt_ofInt] at hsign
  rw [@rtStrncmp_eq signed n t, @rtStrncmp_eq signed n s, BitVec.toInt_ofInt, BitVec.toInt_ofInt, firstDiff_comm n s t] at hanti
  rw [Fits]
  generalize firstDiff signed n s t = d at hbounds hsign hanti ⊢
  by_contra hlarge
  rcases lt_abs.mp (not_le.mp hlarge) with hpos | hneg
  · have hres : d.bmod (2 ^ 8) = d - 256 := by
      rw [Int.bmod_def]
      omega
    rw [hres, Int.sign_eq_neg_one_of_neg (by omega), Int.sign_eq_one_of_pos (by omega)] at hsign
    cases hsign
  · rcases eq_or_lt_of_le (show d ≤ -128 by omega) with rfl | hlt
    · revert hanti
      decide
    · have hres : d.bmod (2 ^ 8) = d + 256 := by
        rw [Int.bmod_def]
        omega
      rw [hres, Int.sign_eq_one_of_pos (by omega), Int.sign_eq_neg_one_of_neg (by omega)] at hsign
      cases hsign

/-- `rt_strncmp` orders two strings exactly if the difference of their first differing characters within the
first `n` fits into a `signed char`, with its opposite; and strings for which it does are in a linear order. -/
theorem rtStrncmp_orders_iff (signed : Bool) (n : ℕ) (s t : List Byte) :
    (Ordered signed n s t ↔ |firstDiff signed n s t| ≤ 127) ∧
      ∀ u, |firstDiff signed n s t| ≤ 127 → |firstDiff signed n t u| ≤ 127 → |firstDiff signed n s u| ≤ 127 →
        (rtStrncmp n s t).toInt ≤ 0 → (rtStrncmp n t u).toInt ≤ 0 → (rtStrncmp n s u).toInt ≤ 0 := by
  refine ⟨⟨Ordered.fits, Fits.ordered⟩, fun u hst htu hsu hle hle' => ?_⟩
  rw [toInt_rtStrncmp hst] at hle
  rw [toInt_rtStrncmp htu] at hle'
  rw [toInt_rtStrncmp hsu]
  exact firstDiff_trans hle hle'

/-- Where `char` is unsigned the string `"\x01"` is before `"\x82"`, and where it is signed `"\x80"` is
before `"\x01"`. -/
theorem large_difference_truncated :
    (firstDiff false 1 [0x01] [0x82] < 0 ∧ (rtStrncmp 1 [0x01] [0x82]).toInt = 127 ∧ ¬Ordered false 1 [0x01] [0x82]) ∧
      firstDiff true 1 [0x80] [0x01] < 0 ∧ (rtStrncmp 1 [0x80] [0x01]).toInt = 127 ∧ ¬Ordered true 1 [0x80] [0x01] :=
  ⟨⟨by decide, by decide, fun h => absurd h.sign_eq (by decide)⟩, by decide, by decide, fun h => absurd h.sign_eq (by decide)⟩

end RtThread.Kservice.Compare
