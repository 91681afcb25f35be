import RtThread.Finsh.VmRuns

/-!
# FinSH: the members of a slot

`low` are the bytes of a word that the member of a width takes, `rest` the others.
-/

namespace RtThread.Finsh

def Width.bits : Width → ℕ
  | .byte => 8
  | .word => 16
  | .dword => 32

def Width.low : Width → Word → Word
  | .byte, v => v &&& 0xFF
  | .word, v => v &&& 0xFFFF
  | .dword, v => v

def Width.rest : Width → Word → Word
  | .byte, v => v &&& 0xFFFFFF00
  | .word, v => v &&& 0xFFFF0000
  | .dword, _ => 0

theorem getLsbD_mask (k : ℕ) {m : Word} (hm : m = (BitVec.allOnes k).setWidth 32) {i : ℕ} (hi : i < 32) :
    m.getLsbD i = decide (i < k) := by
  rw [hm, BitVec.getLsbD_setWidth, BitVec.getLsbD_allOnes, decide_eq_true hi, Bool.true_and]

theorem getLsbD_not_mask (k : ℕ) {m : Word} (hm : m = ~~~(BitVec.allOnes k).setWidth 32) {i : ℕ} (hi : i < 32) :
    m.getLsbD i = !decide (i < k) := by
  rw [hm, BitVec.getLsbD_not, decide_eq_true hi, Bool.true_and, getLsbD_mask k rfl hi]

theorem Width.getLsbD_low (w : Width) (v : Word) {i : ℕ} (hi : i < 32) :
    (w.low v).getLsbD i = (v.getLsbD i && decide (i < w.bits)) := by
  cases w with
  | byte =>
    have hmask : (0xFF : Word).getLsbD i = decide (i < 8) := getLsbD_mask 8 rfl hi
    rw [Width.low, BitVec.getLsbD_and, hmask, Width.bits]
  | word =>
    have hmask : (0xFFFF : Word).getLsbD i = decide (i < 16) := getLsbD_mask 16 rfl hi
    rw [Width.low, BitVec.getLsbD_and, hmask, Width.bits]
  | dword => rw [Width.low, Width.bits, decide_eq_true hi, Bool.and_true]

theorem Width.getLsbD_rest (w : Width) (v : Word) {i : ℕ} (hi : i < 32) :
    (w.rest v).getLsbD i = (v.getLsbD i && !decide (i < w.bits)) := by
  cases w with
  | byte =>
    have hmask : (0xFFFFFF00 : Word).getLsbD i = !decide (i < 8) := getLsbD_not_mask 8 rfl hi
    rw [Width.rest, BitVec.getLsbD_and, hmask, Width.bits]
  | word =>
    have hmask : (0xFFFF0000 : Word).getLsbD i = !decide (i < 16) := getLsbD_not_mask 16 rfl hi
    rw [Width.rest, BitVec.getLsbD_and, hmask, Width.bits]
  | dword =>
    rw [Width.rest, Width.bits, decide_eq_true hi, Bool.not_true, Bool.and_false]
    exact BitVec.getLsbD_zero

theorem Width.write_eq (w : Width) (old v : Word) : w.write old v = w.rest old ||| w.low v := by
  cases w with
  | byte => rfl
  | word => rfl
  | dword => exact BitVec.zero_or.symm

theorem Width.getLsbD_write (w : Width) (old v : Word) {i : ℕ} (hi : i < 32) :
    (w.write old v).getLsbD i = if i < w.bits then v.getLsbD i else old.getLsbD i := by
  rw [w.write_eq, BitVec.getLsbD_or, w.getLsbD_rest old hi, w.getLsbD_low v hi]
  by_cases h : i < w.bits
  · rw [if_pos h, decide_eq_true h, Bool.not_true, Bool.and_false, Bool.false_or, Bool.and_true]
  · rw [if_neg h, decide_eq_false h, Bool.not_false, Bool.and_true, Bool.and_false, Bool.or_false]

theorem Width.low_eq_iff (w : Width) (u v : Word) : w.low u = w.low v ↔ ∀ i < w.bits, u.getLsbD i = v.getLsbD i := by
  constructor
  · intro h i hi
    have hlt : i < 32 := by
      cases w with
      | byte => exact lt_trans hi (by decide)
      | word => exact lt_trans hi (by decide)
      | dword => exact hi
    have hbit := congrArg (BitVec.getLsbD · i) h
    simpa only [w.getLsbD_low _ hlt, decide_eq_true hi, Bool.and_true] using hbit
  · intro h
    refine BitVec.eq_of_getLsbD_eq fun i hi => ?_
    rw [w.getLsbD_low u hi, w.getLsbD_low v hi]
    by_cases hw : i < w.bits
    · rw [h i hw]
    · rw [decide_eq_false hw, Bool.and_false, Bool.and_false]

theorem Width.bits_le (w : Width) : w.bits ≤ 32 := by
  cases w with
  | byte => decide
  | word => decide
  | dword => decide

theorem Width.low_eq_iff_rest {w : Width} {u v : Word} (h : w.low u = w.low v) (r : Width) :
    r.low u = r.low v ↔ r.low (w.rest u) = r.low (w.rest v) := by
  have hbits := (w.low_eq_iff u v).mp h
  rw [r.low_eq_iff, r.low_eq_iff]
  constructor
  · intro hr i hi
    rw [w.getLsbD_rest u (lt_of_lt_of_le hi r.bits_le), w.getLsbD_rest v (lt_of_lt_of_le hi r.bits_le), hr i hi]
  · intro hr i hi
    by_cases hw : i < w.bits
    · exact hbits i hw
    · have hrest := hr i hi
      rwa [w.getLsbD_rest u (lt_of_lt_of_le hi r.bits_le), w.getLsbD_rest v (lt_of_lt_of_le hi r.bits_le),
        decide_eq_false hw, Bool.not_false, Bool.and_true, Bool.and_true] at hrest

theorem Width.low_toNat (w : Width) (v : Word) : (w.low v).toNat = v.toNat % 2 ^ w.bits := by
  cases w with
  | byte => exact (BitVec.toNat_and v 0xFF).trans (Nat.and_two_pow_sub_one_eq_mod v.toNat 8)
  | word => exact (BitVec.toNat_and v 0xFFFF).trans (Nat.and_two_pow_sub_one_eq_mod v.toNat 16)
  | dword => exact (Nat.mod_eq_of_lt v.isLt).symm

@[simp] theorem Width.low_low (w : Width) (v : Word) : w.low (w.low v) = w.low v := by
  refine (w.low_eq_iff _ _).mpr fun i hi => ?_
  rw [w.getLsbD_low v (lt_of_lt_of_le hi w.bits_le), decide_eq_true hi, Bool.and_true]

@[simp] theorem Width.low_write (w : Width) (old v : Word) : w.low (w.write old v) = w.low v := by
  refine (w.low_eq_iff _ _).mpr fun i hi => ?_
  rw [w.getLsbD_write old v (lt_of_lt_of_le hi w.bits_le), if_pos hi]

theorem Width.rest_write (w : Width) (old v : Word) : w.rest (w.write old v) = w.rest old := by
  refine BitVec.eq_of_getLsbD_eq fun i hi => ?_
  rw [w.getLsbD_rest _ hi, w.getLsbD_rest _ hi, w.getLsbD_write old v hi]
  by_cases h : i < w.bits
  · rw [decide_eq_true h, Bool.not_true, Bool.and_false, Bool.and_false]
  · rw [if_neg h]

@[simp] theorem Width.low_promote (w : Width) (target : Target) (v : Word) : w.low (target.promote w v) = w.low v := by
  refine (w.low_eq_iff _ _).mpr fun i hi => ?_
  have hlt : i < 32 := lt_of_lt_of_le hi w.bits_le
  cases w with
  | byte =>
    have hi8 : i < 8 := hi
    rw [Target.promote]
    cases target.charSigned with
    | true =>
      rw [if_pos rfl, BitVec.getLsbD_signExtend, decide_eq_true hlt, if_pos hi8, BitVec.getLsbD_setWidth,
        decide_eq_true hi8]
      rfl
    | false =>
      rw [if_neg Bool.false_ne_true, BitVec.getLsbD_setWidth, BitVec.getLsbD_setWidth, decide_eq_true hlt,
        decide_eq_true hi8]
      rfl
  | word =>
    have hi16 : i < 16 := hi
    rw [Target.promote, BitVec.getLsbD_signExtend, decide_eq_true hlt, if_pos hi16, BitVec.getLsbD_setWidth,
      decide_eq_true hi16]
    rfl
  | dword => rfl

theorem Width.low_add (w : Width) (u v : Word) : w.low (w.low u + w.low v) = w.low (u + v) := by
  have hdvd : 2 ^ w.bits ∣ 2 ^ 32 := Nat.pow_dvd_pow 2 w.bits_le
  refine BitVec.eq_of_toNat_eq ?_
  rw [w.low_toNat, w.low_toNat, BitVec.toNat_add, BitVec.toNat_add, w.low_toNat, w.low_toNat,
    Nat.mod_mod_of_dvd _ hdvd, Nat.mod_mod_of_dvd _ hdvd, ← Nat.add_mod]

theorem Width.low_add_congr {w : Width} {u u' v v' : Word} (hu : w.low u = w.low u') (hv : w.low v = w.low v') :
    w.low (u + v) = w.low (u' + v') := by
  rw [← w.low_add u v, hu, hv, w.low_add]

theorem Width.low_not_congr {w : Width} {u v : Word} (h : w.low u = w.low v) : w.low (~~~u) = w.low (~~~v) := by
  refine (w.low_eq_iff _ _).mpr fun i hi => ?_
  rw [BitVec.getLsbD_not, BitVec.getLsbD_not, (w.low_eq_iff u v).mp h i hi]

theorem Width.low_sub_congr {w : Width} {u u' v v' : Word} (hu : w.low u = w.low u') (hv : w.low v = w.low v') :
    w.low (u - v) = w.low (u' - v') := by
  have hneg : w.low (-v) = w.low (-v') := by
    rw [BitVec.neg_eq_not_add, BitVec.neg_eq_not_add]
    exact Width.low_add_congr (Width.low_not_congr hv) rfl
  rw [BitVec.sub_eq_add_neg, BitVec.sub_eq_add_neg]
  exact Width.low_add_congr hu hneg

theorem Width.promote_congr {w : Width} {u v : Word} (h : w.low u = w.low v) (target : Target) :
    target.promote w u = target.promote w v := by
  have hbits := (w.low_eq_iff u v).mp h
  have hmember : u.setWidth w.bits = v.setWidth w.bits := by
    refine BitVec.eq_of_getLsbD_eq fun i hi => ?_
    rw [BitVec.getLsbD_setWidth, BitVec.getLsbD_setWidth, hbits i hi]
  cases w with
  | byte =>
    have hbyte : u.setWidth 8 = v.setWidth 8 := hmember
    rw [Target.promote, Target.promote, hbyte]
  | word =>
    have hword : u.setWidth 16 = v.setWidth 16 := hmember
    rw [Target.promote, Target.promote, hword]
  | dword => exact h

/-! ### Wider members -/

theorem Width.bits_mono {w u : Width} (h : w.toNat ≤ u.toNat) : w.bits ≤ u.bits := by
  cases w with
  | byte => cases u <;> decide
  | word =>
    cases u with
    | byte => exact absurd h (by decide)
    | word => exact le_rfl
    | dword => decide
  | dword =>
    cases u with
    | byte => exact absurd h (by decide)
    | word => exact absurd h (by decide)
    | dword => exact le_rfl

theorem Width.low_mono {w u : Width} (hle : w.toNat ≤ u.toNat) {a b : Word} (h : u.low a = u.low b) :
    w.low a = w.low b := by
  have hbits := (u.low_eq_iff a b).mp h
  exact (w.low_eq_iff a b).mpr fun i hi => hbits i (hi.trans_le (Width.bits_mono hle))

theorem Width.low_write_congr {u w : Width} {old old' v v' : Word} (hold : u.low old = u.low old')
    (hv : w.low v = w.low v') : u.low (w.write old v) = u.low (w.write old' v') := by
  have hbits := (u.low_eq_iff old old').mp hold
  refine (u.low_eq_iff _ _).mpr fun i hi => ?_
  have hlt : i < 32 := hi.trans_le u.bits_le
  rw [w.getLsbD_write old v hlt, w.getLsbD_write old' v' hlt]
  by_cases h : i < w.bits
  · rw [if_pos h, if_pos h, (w.low_eq_iff v v').mp hv i h]
  · rw [if_neg h, if_neg h, hbits i hi]

/-! ### Memory -/

theorem getLsbD_ofBytes (b0 b1 b2 b3 : Byte) (i : ℕ) : (ofBytes b0 b1 b2 b3).getLsbD i =
    if i < 8 then b0.getLsbD i
    else if i < 16 then b1.getLsbD (i - 8)
    else if i < 24 then b2.getLsbD (i - 16)
    else b3.getLsbD (i - 24) := by
  simp only [ofBytes, BitVec.getLsbD_append]
  by_cases h0 : i < 8
  · simp only [h0, if_true]
  · by_cases h1 : i < 16
    · have h : i - 8 < 8 := by omega
      simp only [h0, h1, h, if_true, if_false]
    · by_cases h2 : i < 24
      · have h : ¬ i - 8 < 8 := by omega
        have he : i - 8 - 8 = i - 16 := by omega
        simp only [h0, h1, h2, h, he, if_true, if_false]
        rw [if_pos (by omega)]
      · have h : ¬ i - 8 < 8 := by omega
        have he : i - 8 - 8 - 8 = i - 24 := by omega
        simp only [h0, h1, h2, h, he, if_false]
        rw [if_neg (by omega)]

theorem load_eq_low (mem : Memory) (w : Width) (a : Word) : load mem w a = w.low (load mem .dword a) := by
  refine BitVec.eq_of_getLsbD_eq fun i hi => ?_
  rw [w.getLsbD_low _ hi]
  cases w with
  | byte =>
    rw [load, load, getLsbD_ofBytes, BitVec.getLsbD_setWidth, decide_eq_true hi, Bool.true_and, Width.bits]
    by_cases h : i < 8
    · rw [if_pos h, decide_eq_true h, Bool.and_true]
    · rw [decide_eq_false h, Bool.and_false]
      exact BitVec.getLsbD_of_ge _ i (Nat.not_lt.mp h)
  | word =>
    rw [load, load, getLsbD_ofBytes, getLsbD_ofBytes, Width.bits]
    by_cases h0 : i < 8
    · have h1 : i < 16 := by omega
      rw [if_pos h0, if_pos h0, decide_eq_true h1, Bool.and_true]
    · by_cases h1 : i < 16
      · rw [if_neg h0, if_pos h1, if_neg h0, if_pos h1, decide_eq_true h1, Bool.and_true]
      · have hzero : ∀ k, (0 : Byte).getLsbD k = false := fun k => BitVec.getLsbD_zero
        rw [if_neg h0, if_neg h1, hzero, hzero, ite_self, decide_eq_false h1, Bool.and_false]
  | dword => rw [Width.bits, decide_eq_true hi, Bool.and_true]

theorem load_store (mem : Memory) (w : Width) (a v : Word) :
    load (store mem w a v) .dword a = w.write (load mem .dword a) v := by
  have h01 : a ≠ a + 1 := by bv_omega
  have h02 : a ≠ a + 2 := by bv_omega
  have h03 : a ≠ a + 3 := by bv_omega
  have h12 : a + 1 ≠ a + 2 := by bv_omega
  have h13 : a + 1 ≠ a + 3 := by bv_omega
  cases w with
  | byte =>
    refine BitVec.eq_of_getLsbD_eq fun i hi => ?_
    rw [Width.getLsbD_write _ _ _ hi]
    simp only [load, store, Function.update_self, Function.update_of_ne h01.symm, Function.update_of_ne h02.symm,
      Function.update_of_ne h03.symm, getLsbD_ofBytes, Width.bits]
    by_cases h : i < 8
    · rw [if_pos h, if_pos h, BitVec.getLsbD_extractLsb', decide_eq_true h, Bool.true_and, Nat.zero_add]
    · rw [if_neg h, if_neg h, if_neg h]
  | word =>
    refine BitVec.eq_of_getLsbD_eq fun i hi => ?_
    rw [Width.getLsbD_write _ _ _ hi]
    simp only [load, store, Function.update_self, Function.update_of_ne h01, Function.update_of_ne h02.symm,
      Function.update_of_ne h03.symm, Function.update_of_ne h12.symm, Function.update_of_ne h13.symm, getLsbD_ofBytes,
      Width.bits]
    by_cases h0 : i < 8
    · have h1 : i < 16 := by omega
      rw [if_pos h0, if_pos h1, BitVec.getLsbD_extractLsb', decide_eq_true h0, Bool.true_and, Nat.zero_add]
    · by_cases h1 : i < 16
      · have hlt : i - 8 < 8 := by omega
        rw [if_neg h0, if_pos h1, if_pos h1, BitVec.getLsbD_extractLsb', decide_eq_true hlt, Bool.true_and,
          Nat.add_sub_cancel' (Nat.not_lt.mp h0)]
      · rw [if_neg h0, if_neg h1, if_neg h1, if_neg h0, if_neg h1]
  | dword => exact load_store_same mem a v

theorem load_toNat (mem : Memory) (w : Width) (a : Word) : (load mem w a).toNat % 2 ^ 8 = (mem a).toNat := by
  have hbyte : Width.byte.low (load mem w a) = load mem .byte a := by
    rw [load_eq_low mem w, load_eq_low mem .byte]
    refine (Width.low_eq_iff ..).mpr fun i hi => ?_
    have hlt : i < 32 := hi.trans (by decide)
    have hw : i < w.bits := hi.trans_le (by cases w <;> decide)
    rw [w.getLsbD_low _ hlt, decide_eq_true hw, Bool.and_true]
  have hnat := congrArg BitVec.toNat hbyte
  rw [Width.low_toNat] at hnat
  refine hnat.trans ?_
  rw [load, BitVec.toNat_setWidth]
  exact Nat.mod_eq_of_lt ((mem a).isLt.trans (by decide))

theorem load_store_low (mem : Memory) (w : Width) (a v : Word) : load (store mem w a v) w a = w.low v := by
  rw [load_eq_low, load_store, Width.low_write]

theorem store_at (mem : Memory) (w : Width) (a v : Word) : store mem w a v a = v.extractLsb' 0 8 := by
  have h1 : a ≠ a + 1 := by bv_omega
  have h2 : a ≠ a + 2 := by bv_omega
  have h3 : a ≠ a + 3 := by bv_omega
  cases w with
  | byte => exact Function.update_self ..
  | word => rw [store, Function.update_of_ne h1, Function.update_self]
  | dword =>
    rw [store, Function.update_of_ne h3, Function.update_of_ne h2, Function.update_of_ne h1, Function.update_self]

theorem store_off (mem : Memory) (w : Width) {a b : Word} (v : Word) (h : ∀ p : Word, p < 4 → b ≠ a + p) :
    store mem w a v b = mem b := by
  have h0 : b ≠ a := fun heq => h 0 (by decide) (heq.trans (BitVec.add_zero a).symm)
  have h1 := h 1 (by decide)
  have h2 := h 2 (by decide)
  have h3 := h 3 (by decide)
  cases w with
  | byte => exact Function.update_of_ne h0 ..
  | word => rw [store, Function.update_of_ne h1, Function.update_of_ne h0]
  | dword =>
    rw [store, Function.update_of_ne h3, Function.update_of_ne h2, Function.update_of_ne h1, Function.update_of_ne h0]

theorem store_congr (mem : Memory) {w : Width} (a : Word) {u v : Word} (h : w.low u = w.low v) :
    store mem w a u = store mem w a v := by
  have hbits := (w.low_eq_iff u v).mp h
  have hbyte : ∀ k, k + 8 ≤ w.bits → u.extractLsb' k 8 = v.extractLsb' k 8 := by
    intro k hk
    refine BitVec.eq_of_getLsbD_eq fun i hi => ?_
    rw [BitVec.getLsbD_extractLsb', BitVec.getLsbD_extractLsb', hbits (k + i) (by omega)]
  cases w with
  | byte => simp only [store, hbyte 0 (by decide)]
  | word => simp only [store, hbyte 0 (by decide), hbyte 8 (by decide)]
  | dword =>
    simp only [store, hbyte 0 (by decide), hbyte 8 (by decide), hbyte 16 (by decide), hbyte 24 (by decide)]

end RtThread.Finsh
