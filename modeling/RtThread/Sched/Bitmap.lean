import Mathlib

/-!
# The bitmap of ready priorities (`scheduler.c`, `kservice.c:1257-1301`)

With at most 32 priorities one word holds a bit for each of them. With up to 256, a byte
of `rt_thread_ready_table` holds a bit for each of eight priorities, and the word a bit for
each byte that is not zero. A thread carries the masks of its priority.
-/

namespace RtThread.Sched.Bitmap

/-! ### `__rt_ffs` -/

/-- `__lowest_bit_bitmap`, row by row. -/
def lowestBitBitmap : List ℕ :=
  let row (n : ℕ) : List ℕ := [n, 0, 1, 0, 2, 0, 1, 0, 3, 0, 1, 0, 2, 0, 1, 0]
  row 0 ++ row 4 ++ row 5 ++ row 4 ++ row 6 ++ row 4 ++ row 5 ++ row 4 ++
    row 7 ++ row 4 ++ row 5 ++ row 4 ++ row 6 ++ row 4 ++ row 5 ++ row 4

/-- `__rt_ffs` (`kservice.c:1287-1301`). -/
def rtFfs (value : BitVec 32) : ℕ :=
  if value = 0 then 0
  else if value &&& 0xff ≠ 0 then lowestBitBitmap.getD (value &&& 0xff).toNat 0 + 1
  else if value &&& 0xff00 ≠ 0 then lowestBitBitmap.getD ((value &&& 0xff00) >>> 8).toNat 0 + 9
  else if value &&& 0xff0000 ≠ 0 then
    lowestBitBitmap.getD ((value &&& 0xff0000) >>> 16).toNat 0 + 17
  else lowestBitBitmap.getD ((value &&& 0xff000000) >>> 24).toNat 0 + 25

theorem lowestBitBitmap_entry : ∀ entry ∈ (List.range 256).zip lowestBitBitmap, entry.1 ≠ 0 →
    entry.2 < 8 ∧ entry.1.testBit entry.2 = true ∧ ∀ j < entry.2, entry.1.testBit j = false := by
  decide +kernel

theorem lowestBitBitmap_spec : ∀ b < 256, b ≠ 0 → lowestBitBitmap.getD b 0 < 8 ∧
    b.testBit (lowestBitBitmap.getD b 0) = true ∧
    ∀ j < lowestBitBitmap.getD b 0, b.testBit j = false := by
  intro b hb hne
  have hlength : lowestBitBitmap.length = 256 := by decide +kernel
  have hentry : (b, lowestBitBitmap.getD b 0) ∈ (List.range 256).zip lowestBitBitmap := by
    rw [List.getD_eq_getElem _ _ (by omega), List.mem_iff_getElem]
    exact ⟨b, by simp [hlength, hb], by simp⟩
  exact lowestBitBitmap_entry _ hentry hne

theorem getLsbD_byteMask {k : ℕ} (hk : k ≤ 24) (j : ℕ) :
    (0xff#32 <<< k).getLsbD j = decide (k ≤ j ∧ j < k + 8) := by
  have hff : (0xff#32).getLsbD (j - k) = decide (j - k < 8) := by
    rw [BitVec.getLsbD_ofNat, show (0xff : ℕ) = 2 ^ 8 - 1 by rfl, Nat.testBit_two_pow_sub_one]
    by_cases h : j - k < 8
    · simp [h]
      omega
    · simp [h]
  rw [BitVec.getLsbD_shiftLeft, hff]
  by_cases h : k ≤ j ∧ j < k + 8
  · simp [h]
    omega
  · simp only [h, decide_false, Bool.and_eq_false_iff]
    by_cases hj : j < k
    · simp [hj]
    · right
      simp
      omega

theorem byte_eq_zero {v : BitVec 32} {k : ℕ} (hk : k ≤ 24) (h : v &&& (0xff#32 <<< k) = 0) {j : ℕ}
    (hlo : k ≤ j) (hhi : j < k + 8) : v.getLsbD j = false := by
  have hbit : (v &&& (0xff#32 <<< k)).getLsbD j = false := by
    rw [h]
    simp
  rw [BitVec.getLsbD_and, getLsbD_byteMask hk] at hbit
  simpa [hlo, hhi] using hbit

theorem byte_lowest {v : BitVec 32} {k : ℕ} (hk : k ≤ 24) (h : v &&& (0xff#32 <<< k) ≠ 0) {i : ℕ}
    (hi : i = lowestBitBitmap.getD ((v &&& (0xff#32 <<< k)) >>> k).toNat 0) :
    v.getLsbD (k + i) = true ∧ ∀ j, k ≤ j → j < k + i → v.getLsbD j = false := by
  have hbits : ∀ j, ((v &&& (0xff#32 <<< k)) >>> k).toNat.testBit j = (v.getLsbD (k + j) && decide (j < 8)) := by
    intro j
    have := BitVec.getLsbD_ushiftRight (v &&& (0xff#32 <<< k)) k j
    rw [BitVec.getLsbD_and, getLsbD_byteMask hk] at this
    refine this.trans ?_
    congr 1
    simp
  have hlt : ((v &&& (0xff#32 <<< k)) >>> k).toNat < 256 := by
    refine Nat.lt_pow_two_of_testBit (n := 8) _ fun j hj => ?_
    rw [hbits]
    simp
    omega
  have hne : ((v &&& (0xff#32 <<< k)) >>> k).toNat ≠ 0 := by
    intro hzero
    refine h (BitVec.eq_of_getLsbD_eq fun j _ => ?_)
    rw [BitVec.getLsbD_and, getLsbD_byteMask hk]
    by_cases hj : k ≤ j ∧ j < k + 8
    · have hb := hbits (j - k)
      rw [hzero, show k + (j - k) = j by omega] at hb
      simp only [Nat.zero_testBit, show j - k < 8 by omega, decide_true, Bool.and_true] at hb
      simp [hb.symm]
    · simp [hj]
  obtain ⟨h8, hset, hclear⟩ := lowestBitBitmap_spec _ hlt hne
  rw [← hi] at h8 hset hclear
  rw [hbits] at hset
  refine ⟨by simpa [h8] using hset, fun j hlo hhi => ?_⟩
  have hb := hclear (j - k) (by omega)
  rw [hbits, show k + (j - k) = j by omega] at hb
  simpa [show j - k < 8 by omega] using hb

theorem low_zero_byte {v : BitVec 32} {k : ℕ} (hk : k ≤ 24) (hlow : ∀ j < k, v.getLsbD j = false)
    (h : v &&& (0xff#32 <<< k) = 0) : ∀ j < k + 8, v.getLsbD j = false := by
  intro j hj
  rcases Nat.lt_or_ge j k with hjk | hjk
  · exact hlow j hjk
  · exact byte_eq_zero hk h hjk hj

theorem lowest_of_low_zero {v : BitVec 32} {k : ℕ} (hk : k ≤ 24)
    (hlow : ∀ j < k, v.getLsbD j = false) (h : v &&& (0xff#32 <<< k) ≠ 0) :
    ∃ i, lowestBitBitmap.getD ((v &&& (0xff#32 <<< k)) >>> k).toNat 0 + (k + 1) = i + 1 ∧
      v.getLsbD i = true ∧ ∀ j < i, v.getLsbD j = false := by
  obtain ⟨hset, hclear⟩ := byte_lowest hk h rfl
  refine ⟨_, by rw [← Nat.add_assoc, Nat.add_comm _ k], hset, fun j hj => ?_⟩
  rcases Nat.lt_or_ge j k with hjk | hjk
  · exact hlow j hjk
  · exact hclear j hjk hj

/-- For a value that is not zero, `__rt_ffs` is one more than its lowest bit. -/
theorem rtFfs_spec {v : BitVec 32} (hv : v ≠ 0) : ∃ i, rtFfs v = i + 1 ∧ v.getLsbD i = true ∧
    ∀ j < i, v.getLsbD j = false := by
  have hlow : ∀ j < 0, v.getLsbD j = false := nofun
  unfold rtFfs
  rw [if_neg hv]
  by_cases h0 : v &&& 0xff = 0
  · have hlow := low_zero_byte (k := 0) (by omega) hlow h0
    rw [if_neg (not_not.mpr h0)]
    by_cases h8 : v &&& 0xff00 = 0
    · have hlow := low_zero_byte (k := 8) (by omega) hlow h8
      rw [if_neg (not_not.mpr h8)]
      by_cases h16 : v &&& 0xff0000 = 0
      · have hlow := low_zero_byte (k := 16) (by omega) hlow h16
        rw [if_neg (not_not.mpr h16)]
        have h24 : v &&& 0xff000000 ≠ 0 := by
          intro h24
          have hlow := low_zero_byte (k := 24) (by omega) hlow h24
          refine hv (BitVec.eq_of_getLsbD_eq fun j hj => ?_)
          exact (hlow j hj).trans BitVec.getLsbD_zero.symm
        exact lowest_of_low_zero (k := 24) (by omega) hlow h24
      · rw [if_pos h16]
        exact lowest_of_low_zero (k := 16) (by omega) hlow h16
    · rw [if_pos h8]
      exact lowest_of_low_zero (k := 8) (by omega) hlow h8
  · rw [if_pos h0]
    have hbyte := lowest_of_low_zero (k := 0) (by omega) hlow h0
    rwa [BitVec.ushiftRight_zero] at hbyte

/-! ### Masks and bitmaps -/

/-- The fields `number`, `number_mask` and `high_mask` of a thread; the first and the last
exist only with more than 32 priorities. -/
structure Masks where
  number : ℕ
  numberMask : BitVec 32
  highMask : BitVec 8
  deriving DecidableEq

def Masks.zero : Masks := ⟨0, 0, 0⟩

/-- The masks of a priority (`thread.c:296-303`, `thread.c:583-590`). -/
def masksOf (prioMax p : ℕ) : Masks :=
  if 32 < prioMax then ⟨p >>> 3, 1#32 <<< (p >>> 3), 1#8 <<< (p &&& 7)⟩ else ⟨0, 1#32 <<< p, 0⟩

/-- `rt_thread_ready_priority_group` and `rt_thread_ready_table`. -/
structure Bits where
  group : BitVec 32
  readyTable : ℕ → BitVec 8

def Bits.empty : Bits := ⟨0, fun _ => 0⟩

/-- The bits of a thread are set (`scheduler.c:678-681`). -/
def Bits.set (prioMax : ℕ) (b : Bits) (m : Masks) : Bits :=
  if 32 < prioMax then
    ⟨b.group ||| m.numberMask,
      Function.update b.readyTable m.number (b.readyTable m.number ||| m.highMask)⟩
  else { b with group := b.group ||| m.numberMask }

/-- The bits of a thread are cleared (`scheduler.c:766-774`). -/
def Bits.clear (prioMax : ℕ) (b : Bits) (m : Masks) : Bits :=
  if 32 < prioMax then
    let byte := b.readyTable m.number &&& ~~~m.highMask
    ⟨if byte = 0 then b.group &&& ~~~m.numberMask else b.group,
      Function.update b.readyTable m.number byte⟩
  else { b with group := b.group &&& ~~~m.numberMask }

/-- The number that `_get_highest_priority_thread` computes (`scheduler.c:175-182`). -/
def Bits.highest (prioMax : ℕ) (b : Bits) : ℕ :=
  if 32 < prioMax then
    let number := rtFfs b.group - 1
    (number <<< 3) + rtFfs ((b.readyTable number).setWidth 32) - 1
  else rtFfs b.group - 1

def Bits.Marked (prioMax : ℕ) (b : Bits) (p : ℕ) : Prop :=
  if 32 < prioMax then (b.readyTable (p >>> 3)).getLsbD (p &&& 7) = true else b.group.getLsbD p = true

/-- With two levels, the word has the bits of the bytes that are not zero. -/
def Bits.Grouped (prioMax : ℕ) (b : Bits) : Prop :=
  32 < prioMax → ∀ n, b.group.getLsbD n = true ↔ b.readyTable n ≠ 0

theorem shiftRight_three (p : ℕ) : p >>> 3 = p / 8 := Nat.shiftRight_eq_div_pow p 3

theorem and_seven (p : ℕ) : p &&& 7 = p % 8 := Nat.and_two_pow_sub_one_eq_mod p 3

theorem eq_iff_coords (p q : ℕ) : q = p ↔ q >>> 3 = p >>> 3 ∧ q &&& 7 = p &&& 7 := by
  simp only [shiftRight_three, and_seven]
  omega

theorem getLsbD_one_shiftLeft {w i : ℕ} (hi : i < w) (j : ℕ) :
    (1#w <<< i).getLsbD j = decide (j = i) := by
  have htwo := BitVec.getLsbD_twoPow (w := w) i j
  rw [BitVec.twoPow_eq] at htwo
  refine htwo.trans ?_
  simp [hi, eq_comm]

section

variable {prioMax p : ℕ} (hmax : prioMax ≤ 256) (hp : p < prioMax) {b : Bits}

include hmax hp

theorem coords_lt (h : 32 < prioMax) : p >>> 3 < 32 ∧ p &&& 7 < 8 := by
  rw [shiftRight_three, and_seven]
  omega

theorem marked_set (q : ℕ) :
    (b.set prioMax (masksOf prioMax p)).Marked prioMax q ↔ q = p ∨ b.Marked prioMax q := by
  by_cases h : 32 < prioMax
  · obtain ⟨-, hlow⟩ := coords_lt hmax hp h
    simp only [Bits.Marked, Bits.set, masksOf, if_pos h]
    by_cases hn : q >>> 3 = p >>> 3
    · rw [hn, Function.update_self, BitVec.getLsbD_or, getLsbD_one_shiftLeft hlow, eq_iff_coords p q]
      simp [hn, or_comm]
    · rw [Function.update_of_ne hn, eq_iff_coords p q]
      simp [hn]
  · simp only [Bits.Marked, Bits.set, masksOf, if_neg h]
    rw [BitVec.getLsbD_or, getLsbD_one_shiftLeft (by omega)]
    simp [or_comm]

theorem grouped_set (hb : b.Grouped prioMax) : (b.set prioMax (masksOf prioMax p)).Grouped prioMax := by
  intro h n
  obtain ⟨hnum, hlow⟩ := coords_lt hmax hp h
  simp only [Bits.set, masksOf, if_pos h]
  rw [BitVec.getLsbD_or, getLsbD_one_shiftLeft hnum]
  by_cases hn : n = p >>> 3
  · rw [hn, Function.update_self]
    have hbit : (b.readyTable (p >>> 3) ||| (1#8 <<< (p &&& 7))).getLsbD (p &&& 7) = true := by
      rw [BitVec.getLsbD_or, getLsbD_one_shiftLeft hlow]
      simp
    refine iff_of_true (by simp) fun hzero => ?_
    rw [hzero] at hbit
    simp at hbit
  · rw [Function.update_of_ne hn]
    simpa [hn] using hb h n

theorem marked_clear (q : ℕ) :
    (b.clear prioMax (masksOf prioMax p)).Marked prioMax q ↔ q ≠ p ∧ b.Marked prioMax q := by
  by_cases h : 32 < prioMax
  · obtain ⟨-, hlow⟩ := coords_lt hmax hp h
    simp only [Bits.Marked, Bits.clear, masksOf, if_pos h]
    by_cases hn : q >>> 3 = p >>> 3
    · have hq : q &&& 7 < 8 := by
        rw [and_seven]
        omega
      rw [hn, Function.update_self, BitVec.getLsbD_and, BitVec.getLsbD_not, getLsbD_one_shiftLeft hlow,
        Ne, eq_iff_coords p q]
      simp [hn, hq, and_comm]
    · rw [Function.update_of_ne hn, Ne, eq_iff_coords p q]
      simp [hn]
  · simp only [Bits.Marked, Bits.clear, masksOf, if_neg h]
    rw [BitVec.getLsbD_and, BitVec.getLsbD_not, getLsbD_one_shiftLeft (by omega)]
    by_cases hq : q < 32
    · simp [hq, and_comm]
    · simp [hq, BitVec.getLsbD_of_ge _ _ (Nat.le_of_not_lt hq)]

theorem grouped_clear (hb : b.Grouped prioMax) :
    (b.clear prioMax (masksOf prioMax p)).Grouped prioMax := by
  intro h n
  obtain ⟨hnum, hlow⟩ := coords_lt hmax hp h
  simp only [Bits.clear, masksOf, if_pos h]
  by_cases hn : n = p >>> 3
  · rw [hn, Function.update_self]
    by_cases hzero : b.readyTable (p >>> 3) &&& ~~~(1#8 <<< (p &&& 7)) = 0
    · rw [if_pos hzero, BitVec.getLsbD_and, BitVec.getLsbD_not, getLsbD_one_shiftLeft hnum]
      simp [hzero]
    · rw [if_neg hzero]
      refine iff_of_true ((hb h _).mpr fun hempty => hzero ?_) hzero
      rw [hempty]
      simp
  · rw [Function.update_of_ne hn]
    by_cases hzero : b.readyTable (p >>> 3) &&& ~~~(1#8 <<< (p &&& 7)) = 0
    · rw [if_pos hzero, BitVec.getLsbD_and, BitVec.getLsbD_not, getLsbD_one_shiftLeft hnum, ← hb h n]
      by_cases hn32 : n < 32
      · simp [hn, hn32]
      · simp [BitVec.getLsbD_of_ge _ _ (Nat.le_of_not_lt hn32)]
    · rw [if_neg hzero]
      exact hb h n

end

theorem clear_zero (prioMax : ℕ) (b : Bits) : b.clear prioMax Masks.zero = b := by
  have hall : ∀ {w : ℕ} (x : BitVec w), x &&& ~~~0 = x := by
    intro w x
    refine BitVec.eq_of_getLsbD_eq fun j hj => ?_
    simp [hj]
  unfold Bits.clear Masks.zero
  split
  · simp only [hall, Function.update_eq_self, ite_self]
  · simp only [hall]

/-- `__rt_ffs` on the bitmap gives the least priority whose bit is set. -/
theorem highest_spec {prioMax : ℕ} {b : Bits} (hb : b.Grouped prioMax) (hgroup : b.group ≠ 0) :
    b.Marked prioMax (b.highest prioMax) ∧ ∀ q < b.highest prioMax, ¬b.Marked prioMax q := by
  obtain ⟨i, hi, hset, hclear⟩ := rtFfs_spec hgroup
  by_cases h : 32 < prioMax
  · have hbyte := (hb h i).mp hset
    have hwide : (b.readyTable i).setWidth 32 ≠ 0 := by
      intro hzero
      refine hbyte (BitVec.eq_of_getLsbD_eq fun j hj => ?_)
      have hbit : ((b.readyTable i).setWidth 32).getLsbD j = false := by
        rw [hzero]
        simp
      rw [BitVec.getLsbD_setWidth] at hbit
      simpa [show j < 32 by omega] using hbit
    obtain ⟨k, hk, hkset, hkclear⟩ := rtFfs_spec hwide
    simp only [BitVec.getLsbD_setWidth, Bool.and_eq_true, decide_eq_true_eq, Bool.and_eq_false_iff,
      decide_eq_false_iff_not] at hkset hkclear
    have hk8 : k < 8 := by
      by_contra hge
      rw [BitVec.getLsbD_of_ge _ _ (Nat.le_of_not_lt hge)] at hkset
      cases hkset.2
    have hhigh : b.highest prioMax = 8 * i + k := by
      simp only [Bits.highest, if_pos h, hi, Nat.add_sub_cancel, hk, Nat.shiftLeft_eq]
      omega
    have hdiv : (8 * i + k) >>> 3 = i := by
      rw [shiftRight_three]
      omega
    have hmod : (8 * i + k) &&& 7 = k := by
      rw [and_seven]
      omega
    rw [hhigh]
    simp only [Bits.Marked, if_pos h]
    refine ⟨by rw [hdiv, hmod]; exact hkset.2, fun q hq => ?_⟩
    rw [shiftRight_three, and_seven]
    rcases Nat.lt_or_ge (q / 8) i with hlt | hge
    · -- an earlier byte is zero
      have hzero : b.readyTable (q / 8) = 0 := by
        by_contra hne
        have := (hb h _).mpr hne
        rw [hclear _ hlt] at this
        cases this
      rw [hzero]
      simp
    · have hqi : q / 8 = i := by omega
      rcases hkclear (q % 8) (by omega) with hout | hbit
      · omega
      · rw [hqi, hbit]
        simp
  · simp only [Bits.Marked, Bits.highest, if_neg h, hi, Nat.add_sub_cancel]
    refine ⟨hset, fun q hq => ?_⟩
    rw [hclear q hq]
    simp

theorem group_eq_zero_iff {prioMax : ℕ} {b : Bits} (hb : b.Grouped prioMax) :
    b.group = 0 ↔ ∀ p, ¬b.Marked prioMax p := by
  constructor
  · intro hzero p
    by_cases h : 32 < prioMax
    · have hbyte : b.readyTable (p >>> 3) = 0 := by
        by_contra hne
        have := (hb h _).mpr hne
        rw [hzero] at this
        simp at this
      simp [Bits.Marked, h, hbyte]
    · simp [Bits.Marked, h, hzero]
  · intro hnone
    by_contra hne
    exact hnone _ (highest_spec hb hne).1

theorem empty_grouped (prioMax : ℕ) : Bits.empty.Grouped prioMax := by
  intro _ n
  simp [Bits.empty]

theorem not_marked_empty (prioMax p : ℕ) : ¬Bits.empty.Marked prioMax p := by
  unfold Bits.Marked
  split <;> simp [Bits.empty]

end RtThread.Sched.Bitmap
