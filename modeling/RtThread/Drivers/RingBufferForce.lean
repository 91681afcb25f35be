import RtThread.Drivers.RingBuffer

/-!
# Overwriting writes to a ring buffer (`ringbuffer.c`)

`rt_ringbuffer_put_force` and `rt_ringbuffer_putchar_force` discard the oldest bytes when there is
no room. What is left should be the last bytes of the old contents followed by the new ones; the
block write loses everything when it wraps over unread bytes that did not wrap themselves.
-/

namespace RtThread.Drivers.RingBuffer

open RtThread.Lib.Ring RtThread.Lib.Word

/-- `rt_ringbuffer_put_force` (`ringbuffer.c:98-146`). -/
def rtRingbufferPutForce (rb : RtRingbuffer) (ptr : ℕ → UInt8) (length : UInt16) : RtRingbuffer × ℕ :=
  let spaceLength := rtRingbufferSpaceLen rb % 2 ^ 16
  let ptr := if length.toNat > rb.bufferSize then fun i => ptr (length.toNat - rb.bufferSize + i) else ptr
  let length := if length.toNat > rb.bufferSize then rb.bufferSize else length.toNat
  if rb.bufferSize - rb.writeIndex > length then
    let rb := { rb with
      buffer := copy rb.buffer rb.writeIndex (slice ptr 0 length)
      writeIndex := (rb.writeIndex + length) % 2 ^ 15 }
    (if length > spaceLength then { rb with readIndex := rb.writeIndex } else rb, length)
  else
    let first := rb.bufferSize - rb.writeIndex
    let rb := { rb with
      buffer := copy (copy rb.buffer rb.writeIndex (slice ptr 0 first)) 0 (slice ptr first (length - first))
      writeMirror := !rb.writeMirror
      writeIndex := (length - first) % 2 ^ 15 }
    (if length > spaceLength then { rb with readMirror := !rb.readMirror, readIndex := rb.writeIndex } else rb,
      length)

/-- `rt_ringbuffer_putchar_force` (`ringbuffer.c:229-258`). -/
def rtRingbufferPutcharForce (rb : RtRingbuffer) (ch : UInt8) : RtRingbuffer × ℕ :=
  let oldState := rtRingbufferStatus rb
  let rb := { rb with buffer := Function.update rb.buffer rb.writeIndex ch }
  if rb.writeIndex = rb.bufferSize - 1 then
    let rb := { rb with writeMirror := !rb.writeMirror, writeIndex := 0 }
    (if oldState = .full then { rb with readMirror := !rb.readMirror, readIndex := rb.writeIndex } else rb, 1)
  else
    let rb := { rb with writeIndex := inc 15 rb.writeIndex }
    (if oldState = .full then { rb with readIndex := rb.writeIndex } else rb, 1)

/-- The bytes one by one. -/
def putcharForceAll (rb : RtRingbuffer) : List UInt8 → RtRingbuffer
  | [] => rb
  | ch :: data => putcharForceAll (rtRingbufferPutcharForce rb ch).1 data

/-- The unread bytes in order. -/
def unread (rb : RtRingbuffer) : List UInt8 :=
  contents rb.buffer rb.bufferSize rb.readIndex (rtRingbufferDataLen rb)

variable {rb : RtRingbuffer} {q : List UInt8}

theorem Holds.unread_eq (h : Holds rb q) : unread rb = q := by
  rw [unread, h.dataLen]
  exact h.contents_eq

theorem Holds.status_full_iff (h : Holds rb q) : rtRingbufferStatus rb = .full ↔ q.length = rb.bufferSize := by
  have hread := h.read_lt
  have hlen := h.length_le
  unfold rtRingbufferStatus
  rcases h.write_cases with ⟨hm, hw, hlt⟩ | ⟨hm, hw⟩
  · rw [if_pos hm]
    split <;> exact iff_of_false (by decide) (by omega)
  · rw [if_neg hm]
    split
    · exact iff_of_true rfl (by omega)
    · exact iff_of_false (by decide) (by omega)

/-! ### The queue that forgets -/

/-- The last `size` bytes of `q` followed by `data`. -/
def overwrite (size : ℕ) (q data : List UInt8) : List UInt8 := (q ++ data).drop (q.length + data.length - size)

theorem length_overwrite (size : ℕ) (q data : List UInt8) :
    (overwrite size q data).length = min size (q.length + data.length) := by
  rw [overwrite, List.length_drop, List.length_append]
  omega

theorem overwrite_eq_rtake (size : ℕ) (q data : List UInt8) :
    overwrite size q data = (q ++ data).rtake (min size (q.length + data.length)) := by
  rw [overwrite, List.rtake, List.length_append]
  congr 1
  omega

theorem overwrite_nil {size : ℕ} (hq : q.length ≤ size) : overwrite size q [] = q := by
  rw [overwrite, List.append_nil, List.length_nil, show q.length + 0 - size = 0 by omega, List.drop_zero]

theorem overwrite_overwrite (size : ℕ) (q data data' : List UInt8) :
    overwrite size (overwrite size q data) data' = overwrite size q (data ++ data') := by
  rw [overwrite, length_overwrite, overwrite, overwrite,
    ← List.drop_append_of_le_length (by rw [List.length_append]; omega), List.drop_drop, List.append_assoc,
    List.length_append]
  congr 1
  omega

theorem overwrite_drop {size k : ℕ} (q : List UInt8) {data : List UInt8} (hk : size + k ≤ data.length) :
    overwrite size q (data.drop k) = overwrite size q data := by
  rw [overwrite, overwrite, List.length_drop, List.drop_append, List.drop_append,
    List.drop_of_length_le (show q.length ≤ _ by omega), List.drop_of_length_le (show q.length ≤ _ by omega),
    List.drop_drop]
  congr 2
  omega

/-- Bytes are stored behind the last one. When they do not fit, the read index follows the write
index and the mirrors differ. -/
theorem Holds.overwrite (h : Holds rb q) {rb' : RtRingbuffer} {data : List UInt8} {n : ℕ} (hn : data.length = n)
    (hdata : n ≤ rb.bufferSize)
    (hbuf : rb'.buffer = store rb.bufferSize rb.buffer rb.writeIndex data)
    (hsize : rb'.bufferSize = rb.bufferSize)
    (hw : rb.writeIndex + n < rb.bufferSize ∧ rb'.writeIndex = rb.writeIndex + n ∧
        rb'.writeMirror = rb.writeMirror ∨
      rb.bufferSize ≤ rb.writeIndex + n ∧ rb'.writeIndex = rb.writeIndex + n - rb.bufferSize ∧
        rb'.writeMirror = !rb.writeMirror)
    (hr : q.length + n ≤ rb.bufferSize ∧ rb'.readIndex = rb.readIndex ∧
        rb'.readMirror = rb.readMirror ∨
      rb.bufferSize < q.length + n ∧ rb'.readIndex = rb'.writeIndex ∧
        rb'.readMirror ≠ rb'.writeMirror) :
    Holds rb' (overwrite rb.bufferSize q data) := by
  subst hn
  have hread := h.read_lt
  have hlen := h.length_le
  have hwlt := h.write_lt
  rcases hr with ⟨hfit, hri, hrm⟩ | ⟨hover, hri, hrm⟩
  · rw [RingBuffer.overwrite, show q.length + data.length - rb.bufferSize = 0 by omega, List.drop_zero]
    exact h.push hfit hbuf hsize hri hrm hw
  · obtain ⟨k, hk⟩ := Nat.exists_eq_add_of_lt hover
    have hdrop : (q ++ data).drop (q.length + data.length - rb.bufferSize) = q.drop (k + 1) ++ data := by
      rw [show q.length + data.length - rb.bufferSize = k + 1 by omega, List.drop_append_of_le_length (by omega)]
    have hlength : (q.drop (k + 1) ++ data).length = rb.bufferSize := by
      rw [List.length_append, List.length_drop]
      omega
    -- The place behind the last stored byte is that of the first byte kept.
    have hwrite : rb'.writeIndex = (rb.readIndex + (k + 1)) % rb.bufferSize := by
      have hmod : (rb.writeIndex + data.length) % rb.bufferSize = (rb.readIndex + (k + 1)) % rb.bufferSize := by
        rw [h.write_eq, Nat.mod_add_mod, Nat.add_assoc, hk,
          show rb.readIndex + (rb.bufferSize + k + 1) = rb.readIndex + (k + 1) + rb.bufferSize by omega,
          Nat.add_mod_right]
      rcases hw with ⟨hlt, he, -⟩ | ⟨hge, he, -⟩
      · rw [he, ← hmod, Nat.mod_eq_of_lt hlt]
      · rw [he, ← hmod, Nat.mod_eq_sub_mod hge, Nat.mod_eq_of_lt (by omega)]
    have hlt : rb'.writeIndex < rb.bufferSize := by
      rw [hwrite]
      exact Nat.mod_lt _ (by omega)
    have hkept : contents rb.buffer rb.bufferSize rb'.writeIndex (q.length - (k + 1)) = q.drop (k + 1) := by
      have hall := h.contents_eq
      rw [show q.length = (k + 1) + (q.length - (k + 1)) by omega, contents_add, ← hwrite] at hall
      have hsplit := (List.append_inj (hall.trans (List.take_append_drop (k + 1) q).symm) (by
        rw [length_contents, List.length_take]
        omega)).2
      exact hsplit
    rw [RingBuffer.overwrite, hdrop]
    constructor
    · rw [hsize]
      exact h.size_lt
    · rw [hsize, hri]
      exact hlt
    · rw [hsize, hlength]
    · have hstore := @contents_store UInt8 rb.bufferSize rb'.writeIndex data (q.length - (k + 1)) (by omega) rb.buffer
      rw [hkept] at hstore
      have hplace : (rb'.writeIndex + (q.length - (k + 1))) % rb.bufferSize = rb.writeIndex := by
        rw [hwrite, Nat.mod_add_mod, h.write_eq]
        congr 1
        omega
      rw [hplace] at hstore
      rw [hbuf, hsize, hri, hlength, ← hstore]
      congr 1
      omega
    · rw [hsize, hri, hlength, Nat.add_mod_right, Nat.mod_eq_of_lt hlt]
    · rw [hsize, hlength]
      exact iff_of_false hrm (by omega)

theorem putcharForce_spec (h : Holds rb q) (ch : UInt8) :
    (rtRingbufferPutcharForce rb ch).1.bufferSize = rb.bufferSize ∧
      Holds (rtRingbufferPutcharForce rb ch).1 (overwrite rb.bufferSize q [ch]) := by
  have hsize := h.size_lt
  have hread := h.read_lt
  have hlen := h.length_le
  have hwlt := h.write_lt
  have hfull := h.status_full_iff
  have hdiff : rtRingbufferStatus rb = .full → rb.readMirror ≠ rb.writeMirror := by
    intro hs hm
    have := h.mirror_iff.mp hm
    have := hfull.mp hs
    omega
  unfold rtRingbufferPutcharForce
  simp only
  split
  · split
    · rename_i hlast hs
      have hfits := hfull.mp hs
      refine ⟨rfl, h.overwrite List.length_singleton (by omega) rfl rfl (Or.inr ⟨by omega, ?_, rfl⟩)
        (Or.inr ⟨by omega, rfl, ?_⟩)⟩
      · simp only
        omega
      · simpa using hdiff hs
    · rename_i hlast hs
      rw [hfull] at hs
      refine ⟨rfl, h.overwrite List.length_singleton (by omega) rfl rfl (Or.inr ⟨by omega, ?_, rfl⟩)
        (Or.inl ⟨by omega, rfl, rfl⟩)⟩
      simp only
      omega
  · have hinc : inc 15 rb.writeIndex = rb.writeIndex + 1 := inc_of_lt (by omega)
    split
    · rename_i hlast hs
      have hfits := hfull.mp hs
      exact ⟨rfl, h.overwrite List.length_singleton (by omega) rfl rfl (Or.inl ⟨by omega, hinc, rfl⟩)
        (Or.inr ⟨by omega, rfl, hdiff hs⟩)⟩
    · rename_i hlast hs
      rw [hfull] at hs
      exact ⟨rfl, h.overwrite List.length_singleton (by omega) rfl rfl (Or.inl ⟨by omega, hinc, rfl⟩)
        (Or.inl ⟨by omega, rfl, rfl⟩)⟩

theorem putcharForceAll_spec (h : Holds rb q) (data : List UInt8) :
    (putcharForceAll rb data).bufferSize = rb.bufferSize ∧
      Holds (putcharForceAll rb data) (overwrite rb.bufferSize q data) := by
  induction data generalizing rb q with
  | nil =>
    rw [overwrite_nil h.length_le]
    exact ⟨rfl, h⟩
  | cons ch data ih =>
    obtain ⟨hsize, hone⟩ := putcharForce_spec h ch
    obtain ⟨hsizes, hall⟩ := ih hone
    rw [hsize, overwrite_overwrite] at hall
    exact ⟨hsizes.trans hsize, hall⟩

/-- The unread bytes did not wrap, and the block reaches into them: the branch of `put_force` that
flips the mirror of the reader takes the buffer for an empty one. -/
def Overrun (rb : RtRingbuffer) (length : UInt16) : Prop :=
  rb.readMirror = rb.writeMirror ∧ rtRingbufferSpaceLen rb < min length.toNat rb.bufferSize

instance (rb : RtRingbuffer) (length : UInt16) : Decidable (Overrun rb length) := instDecidableAnd

theorem overwrite_slice (ptr : ℕ → UInt8) (length size : ℕ) (q : List UInt8) :
    overwrite size q (slice (if length > size then fun i => ptr (length - size + i) else ptr) 0
      (if length > size then size else length)) = overwrite size q (slice ptr 0 length) := by
  split
  · rename_i hlong
    have hslice : slice (fun i => ptr (length - size + i)) 0 size = (slice ptr 0 length).drop (length - size) := by
      rw [drop_slice, Nat.zero_add, show length - (length - size) = size by omega, slice, slice,
        ← Nat.add_zero (length - size), ← List.map_add_range', List.map_map, Nat.add_zero]
      rfl
    rw [hslice, overwrite_drop q (by rw [length_slice]; omega)]
  · rfl

theorem Holds.overrun_iff (h : Holds rb q) (length : UInt16) : Overrun rb length ↔
    rb.readMirror = rb.writeMirror ∧ rb.bufferSize < q.length + min length.toNat rb.bufferSize := by
  have hlen := h.length_le
  rw [Overrun, h.spaceLen]
  exact and_congr_right fun _ => by omega

theorem putForce_spec (h : Holds rb q) (ptr : ℕ → UInt8) (length : UInt16) :
    (rtRingbufferPutForce rb ptr length).1.bufferSize = rb.bufferSize ∧
      Holds (rtRingbufferPutForce rb ptr length).1
        (if Overrun rb length then [] else overwrite rb.bufferSize q (slice ptr 0 length.toNat)) := by
  have hsize := h.size_lt
  have hread := h.read_lt
  have hlen := h.length_le
  have hwlt := h.write_lt
  have hspace : rtRingbufferSpaceLen rb % 2 ^ 16 = rb.bufferSize - q.length := by
    rw [h.spaceLen, Nat.mod_eq_of_lt (by omega)]
  rw [← overwrite_slice ptr length.toNat rb.bufferSize q]
  have hoverrun := h.overrun_iff length
  unfold rtRingbufferPutForce
  simp only [hspace]
  generalize hptr : (if length.toNat > rb.bufferSize then fun i => ptr (length.toNat - rb.bufferSize + i)
    else ptr) = src
  have hn : (if length.toNat > rb.bufferSize then rb.bufferSize else length.toNat) =
      min length.toNat rb.bufferSize := by
    split <;> omega
  rw [hn]
  generalize hn' : min length.toNat rb.bufferSize = n at hoverrun ⊢
  have hstore := store_eq_copy (show (slice src 0 n).length ≤ rb.bufferSize by rw [length_slice]; omega) hwlt
    rb.buffer
  split
  · rename_i hroom
    have hw : (rb.writeIndex + n) % 2 ^ 15 = rb.writeIndex + n := Nat.mod_eq_of_lt (by omega)
    have hkeep : ¬Overrun rb length := by
      intro hlost
      obtain ⟨hm, hover⟩ := hoverrun.mp hlost
      rcases h.write_cases with ⟨-, hwe, -⟩ | ⟨hne, -⟩
      · omega
      · exact hne hm
    rw [List.take_of_length_le (by rw [length_slice]; omega),
      List.drop_of_length_le (by rw [length_slice]; omega)] at hstore
    rw [if_neg hkeep]
    split
    · rename_i hover
      exact ⟨rfl, h.overwrite (length_slice src 0 n) (by omega) hstore.symm rfl (Or.inl ⟨by omega, hw, rfl⟩)
        (Or.inr ⟨by omega, rfl, fun hm => hkeep (hoverrun.mpr ⟨hm, by omega⟩)⟩)⟩
    · rename_i hfit
      exact ⟨rfl, h.overwrite (length_slice src 0 n) (by omega) hstore.symm rfl (Or.inl ⟨by omega, hw, rfl⟩)
        (Or.inl ⟨by omega, rfl, rfl⟩)⟩
  · rename_i hwrap
    have hw : (n - (rb.bufferSize - rb.writeIndex)) % 2 ^ 15 = rb.writeIndex + n - rb.bufferSize := by
      rw [Nat.mod_eq_of_lt (by omega)]
      omega
    rw [take_slice src 0 (by omega), drop_slice, Nat.zero_add] at hstore
    split
    · rename_i hover
      refine ⟨rfl, ?_⟩
      split
      · -- Both mirrors are flipped and the indices are equal.
        rename_i hlost
        obtain ⟨hm, -⟩ := hoverrun.mp hlost
        refine ⟨hsize, ?_, Nat.zero_le _, rfl, ?_, ?_⟩
        · simp only [hw]
          omega
        · simp only [hw, List.length_nil, Nat.add_zero]
          exact (Nat.mod_eq_of_lt (by omega)).symm
        · simp only [hw, hm, List.length_nil, Nat.add_zero]
          exact iff_of_true trivial (by omega)
      · rename_i hkeep
        refine h.overwrite (length_slice src 0 n) (by omega) hstore.symm rfl (Or.inr ⟨by omega, hw, rfl⟩)
          (Or.inr ⟨by omega, rfl, fun hm => ?_⟩)
        exact hkeep (hoverrun.mpr ⟨by simpa using hm, by omega⟩)
    · rename_i hfit
      rw [if_neg (fun hlost => hfit (by have := (hoverrun.mp hlost).2; omega))]
      exact ⟨rfl, h.overwrite (length_slice src 0 n) (by omega) hstore.symm rfl (Or.inr ⟨by omega, hw, rfl⟩)
        (Or.inl ⟨by omega, rfl, rfl⟩)⟩

/-! ### Runs -/

inductive ForceOp where
  | op (op : Op)
  | putForce (ptr : ℕ → UInt8) (length : UInt16)
  | putcharForce (ch : UInt8)

def applyForce (rb : RtRingbuffer) : ForceOp → RtRingbuffer
  | .op op => (apply rb op).1
  | .putForce ptr length => (rtRingbufferPutForce rb ptr length).1
  | .putcharForce ch => (rtRingbufferPutcharForce rb ch).1

theorem applyForce_holds (h : Holds rb q) (op : ForceOp) : ∃ q', Holds (applyForce rb op) q' := by
  cases op with
  | op op => exact ⟨_, (apply_spec h op).2.2⟩
  | putForce ptr length => exact ⟨_, (putForce_spec h ptr length).2⟩
  | putcharForce ch => exact ⟨_, (putcharForce_spec h ch).2⟩

theorem run_holds (h : Holds rb q) (ops : List ForceOp) : ∃ q', Holds (ops.foldl applyForce rb) q' := by
  induction ops generalizing rb q with
  | nil => exact ⟨q, h⟩
  | cons op ops ih =>
    obtain ⟨q', h'⟩ := applyForce_holds h op
    exact ih h'

theorem init_holds {k size : ℕ} (pool : ℕ → UInt8) (hk : 2 ^ k ≤ size) (hsize : size < 32768) :
    Holds (rtRingbufferInit k pool size) [] := by
  have hle : size / 2 ^ k * 2 ^ k ≤ size := Nat.div_mul_le_self size (2 ^ k)
  have hpos : 0 < size / 2 ^ k * 2 ^ k := Nat.mul_pos (Nat.div_pos hk (Nat.two_pow_pos k)) (Nat.two_pow_pos k)
  exact ⟨lt_of_le_of_lt hle hsize, hpos, Nat.zero_le _, rfl, (Nat.zero_mod _).symm, iff_of_true rfl hpos⟩

/-- In every state of a buffer the block write leaves the same bytes as its bytes written one by one,
the last ones of the old contents followed by the block, exactly when it is no overrun. -/
theorem putForce_agrees_iff_not_overrun {k size : ℕ} (pool : ℕ → UInt8) (hk : 2 ^ k ≤ size)
    (hsize : size < 32768) (ops : List ForceOp) (ptr : ℕ → UInt8) (length : UInt16) :
    (unread (rtRingbufferPutForce (ops.foldl applyForce (rtRingbufferInit k pool size)) ptr length).1 =
        unread (putcharForceAll (ops.foldl applyForce (rtRingbufferInit k pool size))
          (slice ptr 0 length.toNat)) ∧
      unread (rtRingbufferPutForce (ops.foldl applyForce (rtRingbufferInit k pool size)) ptr length).1 =
        (unread (ops.foldl applyForce (rtRingbufferInit k pool size)) ++ slice ptr 0 length.toNat).rtake
          (min (ops.foldl applyForce (rtRingbufferInit k pool size)).bufferSize
            (rtRingbufferDataLen (ops.foldl applyForce (rtRingbufferInit k pool size)) + length.toNat))) ↔
      ¬Overrun (ops.foldl applyForce (rtRingbufferInit k pool size)) length := by
  obtain ⟨q, h⟩ := run_holds (init_holds pool hk hsize) ops
  generalize ops.foldl applyForce (rtRingbufferInit k pool size) = rb at h ⊢
  have hall := overwrite_eq_rtake rb.bufferSize q (slice ptr 0 length.toNat)
  rw [length_slice] at hall
  rw [(putForce_spec h ptr length).2.unread_eq, (putcharForceAll_spec h _).2.unread_eq, h.unread_eq, h.dataLen,
    ← hall]
  constructor
  · rintro ⟨heq, -⟩ hover
    rw [if_pos hover] at heq
    have hlength := length_overwrite rb.bufferSize q (slice ptr 0 length.toNat)
    rw [← heq, length_slice, List.length_nil] at hlength
    obtain ⟨-, hlt⟩ := hover
    have hread := h.read_lt
    omega
  · intro hkeep
    rw [if_neg hkeep]
    exact ⟨rfl, rfl⟩

/-- A buffer of eight bytes with four unread ones in its middle. -/
def middleOps : List ForceOp := [.op (.put (fun i => i.toUInt8) 6), .op (.get 2)]

theorem putForce_agrees_iff_not_overrun_middle :
    unread (rtRingbufferPutForce (middleOps.foldl applyForce (rtRingbufferInit 2 (fun _ => 0) 8))
        (fun i => (10 + i).toUInt8) 4).1 = [2, 3, 4, 5, 10, 11, 12, 13] := by
  have h := (@putForce_agrees_iff_not_overrun 2 8 (fun _ => 0) (by decide) (by decide) middleOps
    (fun i => (10 + i).toUInt8) 4).mpr (by decide)
  rw [h.2]
  decide

/-- Five more bytes overwrite one, and all are lost. -/
theorem putForce_middle_overrun :
    unread (rtRingbufferPutForce (middleOps.foldl applyForce (rtRingbufferInit 2 (fun _ => 0) 8))
        (fun i => (10 + i).toUInt8) 5).1 = [] ∧
      unread (putcharForceAll (middleOps.foldl applyForce (rtRingbufferInit 2 (fun _ => 0) 8))
        (slice (fun i => (10 + i).toUInt8) 0 5)) = [3, 4, 5, 10, 11, 12, 13, 14] := by
  decide

end RtThread.Drivers.RingBuffer
