import RtThread.Lib.Crc
import RtThread.Utilities.Ymodem

/-!
# The checksum of YMODEM (`ymodem.c:15-56`)

`CRC16` looks the remainder of a byte up in a table. Bit by bit it divides by `x^16 + x^12 + x^5 + 1`.
-/

namespace RtThread.Utilities.Ymodem

open RtThread.Lib.Crc

/-- The polynomial of the CCITT. -/
def ccitt : BitVec 16 := 0x1021

/-- The bits of the bytes, each with its most significant bit first. -/
def bitsOfBytes (q : List UInt8) : List Bool := q.flatMap fun b => bitsOf b.toBitVec

/-- The loop of `CRC16` for one byte. -/
def crcByte (crc : UInt16) (b : UInt8) : UInt16 :=
  (crc <<< 8) ^^^ ccittTable.getD (((crc >>> 8) ^^^ b.toUInt16) &&& 0xff).toNat 0

theorem ccittTable_map :
    ccittTable.map UInt16.toBitVec = (List.range 256).map fun i => shifts ccitt 8 (BitVec.ofNat 16 i <<< 8) := by
  decide +kernel

theorem ccittTable_entry : ∀ i < 256, (ccittTable.getD i 0).toBitVec = shifts ccitt 8 (BitVec.ofNat 16 i <<< 8) := by
  intro i hi
  have hentry := congrArg (·[i]?) ccittTable_map
  simp only [List.getElem?_map, List.getElem?_range hi, Option.map_some] at hentry
  obtain ⟨entry, hget, hshifts⟩ := Option.map_eq_some_iff.mp hentry
  rw [List.getD_eq_getElem?_getD, hget, Option.getD_some, hshifts]

theorem getLsbD_mask (i : ℕ) : (0xff : BitVec 16).getLsbD i = decide (i < 8) := by
  rw [show (0xff : BitVec 16) = BitVec.ofNat 16 (2 ^ 8 - 1) from rfl, BitVec.getLsbD_ofNat, Nat.testBit_two_pow_sub_one]
  by_cases hi : i < 8
  · simp [hi]
    omega
  · simp [hi]

theorem split_bytes (c v : BitVec 16) : c ^^^ (v <<< 8) = ((((c >>> 8) ^^^ v) &&& 0xff) <<< 8) ^^^ (c &&& 0xff) := by
  apply BitVec.eq_of_getLsbD_eq
  intro i hi
  simp only [BitVec.getLsbD_xor, BitVec.getLsbD_shiftLeft, BitVec.getLsbD_and, BitVec.getLsbD_ushiftRight, getLsbD_mask]
  by_cases hlow : i < 8
  · simp [hlow]
  · have hhigh : i - 8 < 8 := by omega
    simp [hlow, hi, hhigh, show 8 + (i - 8) = i by omega]

theorem shifts_low (c : BitVec 16) : shifts ccitt 8 (c &&& 0xff) = c <<< 8 := by
  rw [shifts_of_clear]
  · apply BitVec.eq_of_getLsbD_eq
    intro i hi
    simp only [BitVec.getLsbD_shiftLeft, BitVec.getLsbD_and, getLsbD_mask, show i - 8 < 8 by omega, decide_true,
      Bool.and_true]
  · intro i hi
    rw [BitVec.getMsbD, BitVec.getLsbD_and, getLsbD_mask, decide_eq_false (by omega : ¬16 - 1 - i < 8)]
    simp

theorem crcByte_eq (c : UInt16) (b : UInt8) :
    (crcByte c b).toBitVec = feedBits ccitt c.toBitVec (bitsOf b.toBitVec) := by
  have hindex : (((c >>> 8) ^^^ b.toUInt16) &&& 0xff).toNat < 256 := by
    rw [UInt16.toNat_and]
    exact Nat.lt_of_le_of_lt Nat.and_le_right (by decide)
  rw [feedBits_eq (by decide) _ (by rw [length_bitsOf]; decide), length_bitsOf, topOf_bitsOf (by decide), split_bytes,
    shifts_xor, shifts_low, crcByte, UInt16.toBitVec_xor, ccittTable_entry _ hindex, BitVec.xor_comm]
  have hcast : BitVec.ofNat 16 (((c >>> 8) ^^^ b.toUInt16) &&& 0xff).toNat =
      ((c.toBitVec >>> 8) ^^^ b.toBitVec.setWidth 16) &&& 0xff := by
    have hlt : c.toNat >>> 8 < 65536 := lt_of_le_of_lt (Nat.shiftRight_le _ _) c.toNat_lt
    apply BitVec.eq_of_toNat_eq
    simp [Nat.mod_eq_of_lt hlt]
  rw [hcast]
  rfl

theorem foldl_crcByte (q : List UInt8) (crc : UInt16) :
    (q.foldl crcByte crc).toBitVec = feedBits ccitt crc.toBitVec (bitsOfBytes q) := by
  induction q generalizing crc with
  | nil => rfl
  | cons b q ih =>
    rw [List.foldl_cons, ih, crcByte_eq, bitsOfBytes, bitsOfBytes, List.flatMap_cons, feedBits_append]

theorem bitsOfBytes_split (c : UInt16) : bitsOfBytes [(c >>> 8).toUInt8, c.toUInt8] = bitsOf c.toBitVec := by
  have hhigh : ∀ i ∈ List.range 8, (c >>> 8).toUInt8.toBitVec.getMsbD i = c.toBitVec.getMsbD i := by
    intro i hi
    have hlt := List.mem_range.mp hi
    simp [BitVec.getMsbD, show 7 - i < 8 by omega, show 8 + (7 - i) = 15 - i by omega, hlt, hlt.trans (by decide : 8 < 16)]
  have hlow : ∀ i ∈ List.range 8, c.toUInt8.toBitVec.getMsbD i = c.toBitVec.getMsbD (8 + i) := by
    intro i hi
    have hlt := List.mem_range.mp hi
    simp [BitVec.getMsbD, show 7 - i < 8 by omega, show 15 - (8 + i) = 7 - i by omega, hlt, show 8 + i < 16 by omega]
  calc bitsOfBytes [(c >>> 8).toUInt8, c.toUInt8]
      = (List.range 8).map (c >>> 8).toUInt8.toBitVec.getMsbD ++ (List.range 8).map c.toUInt8.toBitVec.getMsbD := rfl
    _ = (List.range 8).map c.toBitVec.getMsbD ++ (List.range 8).map fun i => c.toBitVec.getMsbD (8 + i) := by
      rw [List.map_congr_left hhigh, List.map_congr_left hlow]
    _ = bitsOf c.toBitVec := rfl

/-- The table does what the division does bit by bit, and the checksum behind the bytes leaves no remainder. -/
theorem crc16_bitwise (q : List UInt8) :
    (crc16 q).toBitVec = feedBits ccitt 0 (bitsOfBytes q) ∧
      crc16 (q ++ [(crc16 q >>> 8).toUInt8, (crc16 q).toUInt8]) = 0 := by
  have hbits : (crc16 q).toBitVec = feedBits ccitt 0 (bitsOfBytes q) := foldl_crcByte q 0
  refine ⟨hbits, ?_⟩
  apply UInt16.toBitVec_inj.mp
  calc (crc16 (q ++ [(crc16 q >>> 8).toUInt8, (crc16 q).toUInt8])).toBitVec
      = ([(crc16 q >>> 8).toUInt8, (crc16 q).toUInt8].foldl crcByte (crc16 q)).toBitVec := by
        rw [crc16, List.foldl_append]
        rfl
    _ = feedBits ccitt (crc16 q).toBitVec (bitsOf (crc16 q).toBitVec) := by
        rw [foldl_crcByte, bitsOfBytes_split]
    _ = 0 := feedBits_bitsOf_self _

/-- The digits from 1 to 9. -/
example : crc16 [0x31, 0x32, 0x33, 0x34, 0x35, 0x36, 0x37, 0x38, 0x39] = 0x31C3 := by decide +kernel

end RtThread.Utilities.Ymodem
