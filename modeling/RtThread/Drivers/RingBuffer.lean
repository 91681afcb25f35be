import RtThread.Lib.Ring
import RtThread.Lib.Transition
import RtThread.Lib.Word

/-!
# Byte ring buffers (`ringbuffer.c`, `ringbuffer.h`)

The read and the write index each have a mirror bit that is flipped when the index wraps; equal
indices mean an empty buffer when the mirrors agree and a full one when they differ. `Fifo` is
what the buffer is for: a queue of at most `size` bytes.
-/

namespace RtThread.Drivers.RingBuffer

open RtThread.Lib.Ring RtThread.Lib.Transition RtThread.Lib.Word

/-- `struct rt_ringbuffer` (`ringbuffer.h:19-51`): the indices are bit fields of 15 bits, the mirrors
of one, and `buffer_size` is an `rt_int16_t`. -/
structure RtRingbuffer where
  buffer : ℕ → UInt8
  readMirror : Bool
  readIndex : ℕ
  writeMirror : Bool
  writeIndex : ℕ
  bufferSize : ℕ

/-- `rt_ringbuffer_init` (`ringbuffer.c:29-43`) with `RT_ALIGN_SIZE = 2 ^ k`. -/
def rtRingbufferInit (k : ℕ) (pool : ℕ → UInt8) (size : ℕ) : RtRingbuffer :=
  ⟨pool, false, 0, false, 0, size / 2 ^ k * 2 ^ k⟩

inductive RtRingbufferState where
  | empty
  | full
  | halffull
  deriving DecidableEq, Repr

def rtRingbufferStatus (rb : RtRingbuffer) : RtRingbufferState :=
  if rb.readIndex = rb.writeIndex then
    if rb.readMirror = rb.writeMirror then .empty else .full
  else .halffull

/-- `rt_ringbuffer_data_len` (`ringbuffer.c:292-307`). -/
def rtRingbufferDataLen (rb : RtRingbuffer) : ℕ :=
  match rtRingbufferStatus rb with
  | .empty => 0
  | .full => rb.bufferSize
  | .halffull =>
    if rb.readIndex < rb.writeIndex then rb.writeIndex - rb.readIndex
    else rb.bufferSize - (rb.readIndex - rb.writeIndex)

/-- The macro `rt_ringbuffer_space_len` (`ringbuffer.h:89`). -/
def rtRingbufferSpaceLen (rb : RtRingbuffer) : ℕ := sub 32 rb.bufferSize (rtRingbufferDataLen rb)

/-- `rt_ringbuffer_put` (`ringbuffer.c:49-90`) of the `length` bytes at `ptr`. -/
def rtRingbufferPut (rb : RtRingbuffer) (ptr : ℕ → UInt8) (length : UInt16) : RtRingbuffer × ℕ :=
  let size := rtRingbufferSpaceLen rb % 2 ^ 16
  if size = 0 then (rb, 0)
  else
    let length := if size < length.toNat then size else length.toNat
    if rb.bufferSize - rb.writeIndex > length then
      ({ rb with
        buffer := copy rb.buffer rb.writeIndex (slice ptr 0 length)
        writeIndex := (rb.writeIndex + length) % 2 ^ 15 }, length)
    else
      let first := rb.bufferSize - rb.writeIndex
      ({ rb with
        buffer := copy (copy rb.buffer rb.writeIndex (slice ptr 0 first)) 0 (slice ptr first (length - first))
        writeMirror := !rb.writeMirror
        writeIndex := (length - first) % 2 ^ 15 }, length)

/-- `rt_ringbuffer_get` (`ringbuffer.c:152-193`): the bytes copied to the caller; their number is the
result of the function. -/
def rtRingbufferGet (rb : RtRingbuffer) (length : UInt16) : RtRingbuffer × List UInt8 :=
  let size := rtRingbufferDataLen rb
  if size = 0 then (rb, [])
  else
    let length := if size < length.toNat then size % 2 ^ 16 else length.toNat
    if rb.bufferSize - rb.readIndex > length then
      ({ rb with readIndex := (rb.readIndex + length) % 2 ^ 15 }, slice rb.buffer rb.readIndex length)
    else
      let first := rb.bufferSize - rb.readIndex
      ({ rb with
        readMirror := !rb.readMirror
        readIndex := (length - first) % 2 ^ 15 },
        slice rb.buffer rb.readIndex first ++ slice rb.buffer 0 (length - first))

/-- `rt_ringbuffer_putchar` (`ringbuffer.c:199-221`). -/
def rtRingbufferPutchar (rb : RtRingbuffer) (ch : UInt8) : RtRingbuffer × ℕ :=
  if rtRingbufferSpaceLen rb = 0 then (rb, 0)
  else
    let rb := { rb with buffer := Function.update rb.buffer rb.writeIndex ch }
    if rb.writeIndex = rb.bufferSize - 1 then
      ({ rb with writeMirror := !rb.writeMirror, writeIndex := 0 }, 1)
    else ({ rb with writeIndex := inc 15 rb.writeIndex }, 1)

/-- `rt_ringbuffer_getchar` (`ringbuffer.c:264-286`): the byte stored at `ch`, when there is one. -/
def rtRingbufferGetchar (rb : RtRingbuffer) : RtRingbuffer × List UInt8 :=
  if rtRingbufferDataLen rb = 0 then (rb, [])
  else
    let ch := rb.buffer rb.readIndex
    if rb.readIndex = rb.bufferSize - 1 then ({ rb with readMirror := !rb.readMirror, readIndex := 0 }, [ch])
    else ({ rb with readIndex := inc 15 rb.readIndex }, [ch])

/-- `rt_ringbuffer_reset` (`ringbuffer.c:313-321`). -/
def rtRingbufferReset (rb : RtRingbuffer) : RtRingbuffer :=
  { rb with readMirror := false, readIndex := 0, writeMirror := false, writeIndex := 0 }

/-! ### The queue -/

/-- The buffer holds the bytes `q` in order. -/
structure Holds (rb : RtRingbuffer) (q : List UInt8) : Prop where
  size_lt : rb.bufferSize < 2 ^ 15
  read_lt : rb.readIndex < rb.bufferSize
  length_le : q.length ≤ rb.bufferSize
  contents_eq : contents rb.buffer rb.bufferSize rb.readIndex q.length = q
  write_eq : rb.writeIndex = (rb.readIndex + q.length) % rb.bufferSize
  mirror_iff : rb.readMirror = rb.writeMirror ↔ rb.readIndex + q.length < rb.bufferSize

variable {rb : RtRingbuffer} {q : List UInt8}

theorem Holds.write_cases (h : Holds rb q) :
    (rb.readMirror = rb.writeMirror ∧ rb.writeIndex = rb.readIndex + q.length ∧
      rb.readIndex + q.length < rb.bufferSize) ∨
    (rb.readMirror ≠ rb.writeMirror ∧ rb.writeIndex + rb.bufferSize = rb.readIndex + q.length) := by
  have hw := h.write_eq
  have hread := h.read_lt
  have hlen := h.length_le
  by_cases hm : rb.readIndex + q.length < rb.bufferSize
  · rw [Nat.mod_eq_of_lt hm] at hw
    exact Or.inl ⟨h.mirror_iff.mpr hm, hw, hm⟩
  · rw [Nat.mod_eq_sub_mod (by omega), Nat.mod_eq_of_lt (by omega)] at hw
    exact Or.inr ⟨fun he => hm (h.mirror_iff.mp he), by omega⟩

theorem Holds.write_lt (h : Holds rb q) : rb.writeIndex < rb.bufferSize := by
  rw [h.write_eq]
  exact Nat.mod_lt _ (Nat.zero_lt_of_lt h.read_lt)

theorem Holds.dataLen (h : Holds rb q) : rtRingbufferDataLen rb = q.length := by
  have hread := h.read_lt
  have hlen := h.length_le
  unfold rtRingbufferDataLen rtRingbufferStatus
  rcases h.write_cases with ⟨hm, hw, hlt⟩ | ⟨hm, hw⟩
  · rw [if_pos hm]
    by_cases he : rb.readIndex = rb.writeIndex
    · rw [if_pos he]
      simp only
      omega
    · rw [if_neg he]
      simp only
      rw [if_pos (by omega)]
      omega
  · rw [if_neg hm]
    by_cases he : rb.readIndex = rb.writeIndex
    · rw [if_pos he]
      simp only
      omega
    · rw [if_neg he]
      simp only
      rw [if_neg (by omega)]
      omega

theorem Holds.spaceLen (h : Holds rb q) : rtRingbufferSpaceLen rb = rb.bufferSize - q.length := by
  have hsize := h.size_lt
  rw [rtRingbufferSpaceLen, h.dataLen, sub_of_le h.length_le (by omega)]

/-- Bytes are stored behind the last one: the write index moves on by their number and flips its
mirror when it reaches the end of the buffer. -/
theorem Holds.push (h : Holds rb q) {rb' : RtRingbuffer} {data : List UInt8}
    (hfit : q.length + data.length ≤ rb.bufferSize)
    (hbuf : rb'.buffer = store rb.bufferSize rb.buffer rb.writeIndex data)
    (hsize : rb'.bufferSize = rb.bufferSize) (hread : rb'.readIndex = rb.readIndex)
    (hrm : rb'.readMirror = rb.readMirror)
    (hw : rb.writeIndex + data.length < rb.bufferSize ∧ rb'.writeIndex = rb.writeIndex + data.length ∧
        rb'.writeMirror = rb.writeMirror ∨
      rb.bufferSize ≤ rb.writeIndex + data.length ∧
        rb'.writeIndex = rb.writeIndex + data.length - rb.bufferSize ∧ rb'.writeMirror = !rb.writeMirror) :
    Holds rb' (q ++ data) := by
  have hreadlt := h.read_lt
  have hwlt := h.write_lt
  have hmod : ∀ x, x + rb.bufferSize = rb.readIndex + (q ++ data).length → x < rb.bufferSize →
      x = (rb.readIndex + (q ++ data).length) % rb.bufferSize := by
    intro x hx hlt
    rw [← hx, Nat.add_mod_right, Nat.mod_eq_of_lt hlt]
  rw [List.length_append] at hmod
  constructor
  · rw [hsize]
    exact h.size_lt
  · rw [hsize, hread]
    exact hreadlt
  · rw [hsize, List.length_append]
    exact hfit
  · have hstore := @contents_store UInt8 rb.bufferSize rb.readIndex data q.length hfit rb.buffer
    rw [hbuf, hsize, hread, List.length_append, h.write_eq, hstore, h.contents_eq]
  · rw [hsize, hread, List.length_append]
    rcases h.write_cases with ⟨-, hwe, -⟩ | ⟨-, hwe⟩ <;> rcases hw with ⟨hlt, he, -⟩ | ⟨hge, he, -⟩
    · rw [he, Nat.mod_eq_of_lt (by omega)]
      omega
    · exact hmod _ (by omega) (by omega)
    · exact hmod _ (by omega) (by omega)
    · omega
  · rw [hsize, hread, hrm, List.length_append]
    rcases h.write_cases with ⟨hm, hwe, -⟩ | ⟨hm, hwe⟩ <;> rcases hw with ⟨hlt, -, he⟩ | ⟨hge, -, he⟩
    · exact iff_of_true (hm.trans he.symm) (by omega)
    · rw [he, hm]
      exact iff_of_false (by simp) (by omega)
    · rw [he]
      exact iff_of_false hm (by omega)
    · omega

theorem Holds.pop {q' : List UInt8} (h : Holds rb (q' ++ q)) {rb' : RtRingbuffer}
    (hbuf : rb'.buffer = rb.buffer) (hsize : rb'.bufferSize = rb.bufferSize)
    (hwrite : rb'.writeIndex = rb.writeIndex) (hwm : rb'.writeMirror = rb.writeMirror)
    (hr : rb.readIndex + q'.length < rb.bufferSize ∧ rb'.readIndex = rb.readIndex + q'.length ∧
        rb'.readMirror = rb.readMirror ∨
      rb.bufferSize ≤ rb.readIndex + q'.length ∧
        rb'.readIndex = rb.readIndex + q'.length - rb.bufferSize ∧ rb'.readMirror = !rb.readMirror) :
    Holds rb' q ∧ contents rb.buffer rb.bufferSize rb.readIndex q'.length = q' := by
  have hlen := h.length_le
  have hreadlt := h.read_lt
  rw [List.length_append] at hlen
  have hmod : rb'.readIndex = (rb.readIndex + q'.length) % rb.bufferSize := by
    rcases hr with ⟨hlt, he, -⟩ | ⟨hge, he, -⟩
    · rw [he, Nat.mod_eq_of_lt hlt]
    · rw [he, Nat.mod_eq_sub_mod hge, Nat.mod_eq_of_lt (by omega)]
  have hcontents := h.contents_eq
  rw [List.length_append, contents_add] at hcontents
  obtain ⟨hfront, hrest⟩ := List.append_inj hcontents (length_contents ..)
  refine ⟨⟨?_, ?_, ?_, ?_, ?_, ?_⟩, hfront⟩
  · rw [hsize]
    exact h.size_lt
  · rw [hmod, hsize]
    exact Nat.mod_lt _ (by omega)
  · rw [hsize]
    omega
  · rw [hbuf, hsize, hmod]
    exact hrest
  · rw [hwrite, hsize, hmod, Nat.mod_add_mod, h.write_eq, List.length_append, Nat.add_assoc]
  · have hmirror := h.mirror_iff
    rw [List.length_append] at hmirror
    rw [hsize, hwm]
    rcases hr with ⟨hlt, he, hm⟩ | ⟨hge, he, hm⟩
    · rw [hm, hmirror, he]
      omega
    · have hdiff : rb.readMirror ≠ rb.writeMirror := fun hm' => by
        have := hmirror.mp hm'
        omega
      refine iff_of_true ?_ (by omega)
      rw [hm]
      cases hrm : rb.readMirror <;> cases hwm' : rb.writeMirror <;> simp_all

theorem put_spec (h : Holds rb q) (ptr : ℕ → UInt8) (length : UInt16) :
    (rtRingbufferPut rb ptr length).2 = min length.toNat (rb.bufferSize - q.length) ∧
      (rtRingbufferPut rb ptr length).1.bufferSize = rb.bufferSize ∧
      Holds (rtRingbufferPut rb ptr length).1
        (q ++ slice ptr 0 (min length.toNat (rb.bufferSize - q.length))) := by
  have hsize := h.size_lt
  have hlen := h.length_le
  have hwlt := h.write_lt
  have hspace : rtRingbufferSpaceLen rb % 2 ^ 16 = rb.bufferSize - q.length := by
    rw [h.spaceLen, Nat.mod_eq_of_lt (by omega)]
  unfold rtRingbufferPut
  simp only [hspace]
  generalize hn : min length.toNat (rb.bufferSize - q.length) = n
  by_cases hfull : rb.bufferSize - q.length = 0
  · rw [if_pos hfull]
    obtain rfl : n = 0 := by omega
    refine ⟨rfl, rfl, ?_⟩
    rw [show slice ptr 0 0 = [] from rfl, List.append_nil]
    exact h
  · rw [if_neg hfull]
    have hcount : (if rb.bufferSize - q.length < length.toNat then rb.bufferSize - q.length
        else length.toNat) = n := by
      split <;> omega
    rw [hcount]
    have hstore := store_eq_copy (show (slice ptr 0 n).length ≤ rb.bufferSize by rw [length_slice]; omega) hwlt
      rb.buffer
    by_cases hfits : rb.bufferSize - rb.writeIndex > n
    · rw [if_pos hfits]
      refine ⟨rfl, rfl, h.push (by rw [length_slice]; omega) ?_ rfl rfl rfl (Or.inl ⟨?_, ?_, rfl⟩)⟩
      · rw [hstore, List.take_of_length_le (by rw [length_slice]; omega),
          List.drop_of_length_le (by rw [length_slice]; omega)]
        rfl
      · rw [length_slice]
        omega
      · simp only [length_slice]
        rw [Nat.mod_eq_of_lt (by omega)]
    · rw [if_neg hfits]
      refine ⟨rfl, rfl, h.push (by rw [length_slice]; omega) ?_ rfl rfl rfl (Or.inr ⟨?_, ?_, rfl⟩)⟩
      · rw [hstore, take_slice ptr 0 (by omega), drop_slice, Nat.zero_add]
      · rw [length_slice]
        omega
      · simp only [length_slice]
        rw [Nat.mod_eq_of_lt (by omega)]
        omega

theorem putchar_spec (h : Holds rb q) (ch : UInt8) :
    (rtRingbufferPutchar rb ch).2 = min 1 (rb.bufferSize - q.length) ∧
      (rtRingbufferPutchar rb ch).1.bufferSize = rb.bufferSize ∧
      Holds (rtRingbufferPutchar rb ch).1 (q ++ [ch].take (rb.bufferSize - q.length)) := by
  have hsize := h.size_lt
  have hlen := h.length_le
  have hwlt := h.write_lt
  unfold rtRingbufferPutchar
  rw [h.spaceLen]
  by_cases hfull : rb.bufferSize - q.length = 0
  · rw [if_pos hfull, hfull]
    refine ⟨rfl, rfl, ?_⟩
    rw [List.take_zero, List.append_nil]
    exact h
  · rw [if_neg hfull, List.take_of_length_le (show [ch].length ≤ _ by rw [List.length_singleton]; omega)]
    simp only
    by_cases hlast : rb.writeIndex = rb.bufferSize - 1
    · rw [if_pos hlast]
      refine ⟨by omega, rfl, h.push (by rw [List.length_singleton]; omega) rfl rfl rfl rfl (Or.inr ⟨?_, ?_, rfl⟩)⟩
      · rw [List.length_singleton]
        omega
      · simp only [List.length_singleton]
        omega
    · rw [if_neg hlast]
      refine ⟨by omega, rfl, h.push (by rw [List.length_singleton]; omega) rfl rfl rfl rfl (Or.inl ⟨?_, ?_, rfl⟩)⟩
      · rw [List.length_singleton]
        omega
      · exact inc_of_lt (by omega)

theorem get_spec (h : Holds rb q) (length : UInt16) :
    (rtRingbufferGet rb length).2 = q.take length.toNat ∧
      (rtRingbufferGet rb length).1.bufferSize = rb.bufferSize ∧
      Holds (rtRingbufferGet rb length).1 (q.drop length.toNat) := by
  have hsize := h.size_lt
  have hlen := h.length_le
  have hrlt := h.read_lt
  unfold rtRingbufferGet
  simp only [h.dataLen]
  by_cases hempty : q.length = 0
  · rw [if_pos hempty, List.eq_nil_of_length_eq_zero hempty, List.take_nil, List.drop_nil]
    rw [List.eq_nil_of_length_eq_zero hempty] at h
    exact ⟨rfl, rfl, h⟩
  · rw [if_neg hempty]
    have hcount : (if q.length < length.toNat then q.length % 2 ^ 16 else length.toNat) =
        (q.take length.toNat).length := by
      rw [List.length_take]
      split
      · rw [Nat.mod_eq_of_lt (by omega)]
        omega
      · omega
    have hle : (q.take length.toNat).length ≤ q.length := List.length_take_le' _ _
    rw [hcount]
    have hq : Holds rb (q.take length.toNat ++ q.drop length.toNat) := by
      rw [List.take_append_drop]
      exact h
    generalize q.take length.toNat = q' at hq hle ⊢
    by_cases hfits : rb.bufferSize - rb.readIndex > q'.length
    · rw [if_pos hfits]
      simp only
      obtain ⟨hrest, hfront⟩ := @Holds.pop rb _ q' hq
        { rb with readIndex := (rb.readIndex + q'.length) % 2 ^ 15 } rfl rfl rfl rfl
        (Or.inl ⟨by omega, Nat.mod_eq_of_lt (by omega), rfl⟩)
      refine ⟨?_, trivial, hrest⟩
      rw [← contents_eq_slice rb.buffer (show rb.readIndex + q'.length ≤ rb.bufferSize by omega)]
      exact hfront
    · rw [if_neg hfits]
      simp only
      obtain ⟨hrest, hfront⟩ := @Holds.pop rb _ q' hq
        { rb with readMirror := !rb.readMirror, readIndex := (q'.length - (rb.bufferSize - rb.readIndex)) % 2 ^ 15 }
        rfl rfl rfl rfl (Or.inr ⟨by omega, by simp only; rw [Nat.mod_eq_of_lt (by omega)]; omega, rfl⟩)
      refine ⟨?_, trivial, hrest⟩
      rw [← contents_eq_slices rb.buffer hrlt (by omega) (by omega)]
      exact hfront

theorem getchar_spec (h : Holds rb q) :
    (rtRingbufferGetchar rb).2 = q.take 1 ∧ (rtRingbufferGetchar rb).1.bufferSize = rb.bufferSize ∧
      Holds (rtRingbufferGetchar rb).1 (q.drop 1) := by
  have hsize := h.size_lt
  have hrlt := h.read_lt
  unfold rtRingbufferGetchar
  rw [h.dataLen]
  cases q with
  | nil => exact ⟨rfl, rfl, h⟩
  | cons b q =>
    rw [if_neg (by rw [List.length_cons]; omega)]
    have hq : Holds rb ([b] ++ q) := h
    simp only
    by_cases hlast : rb.readIndex = rb.bufferSize - 1
    · rw [if_pos hlast]
      obtain ⟨hrest, hfront⟩ := @Holds.pop rb _ [b] hq { rb with readMirror := !rb.readMirror, readIndex := 0 }
        rfl rfl rfl rfl (Or.inr ⟨by rw [List.length_singleton]; omega, by rw [List.length_singleton]; simp only; omega, rfl⟩)
      refine ⟨?_, rfl, hrest⟩
      rw [List.length_singleton, contents, contents, Nat.add_zero, Nat.mod_eq_of_lt hrlt] at hfront
      exact hfront
    · rw [if_neg hlast]
      obtain ⟨hrest, hfront⟩ := @Holds.pop rb _ [b] hq { rb with readIndex := inc 15 rb.readIndex }
        rfl rfl rfl rfl (Or.inl ⟨by rw [List.length_singleton]; omega, inc_of_lt (by omega), rfl⟩)
      refine ⟨?_, rfl, hrest⟩
      rw [List.length_singleton, contents, contents, Nat.add_zero, Nat.mod_eq_of_lt hrlt] at hfront
      exact hfront

/-! ### Runs -/

inductive Op where
  | put (ptr : ℕ → UInt8) (length : UInt16)
  | putchar (ch : UInt8)
  | get (length : UInt16)
  | getchar
  | reset

inductive Result where
  | stored (n : ℕ)
  | fetched (bytes : List UInt8)
  | done
  deriving DecidableEq

def stored (r : RtRingbuffer × ℕ) : RtRingbuffer × Result := (r.1, .stored r.2)

def fetched (r : RtRingbuffer × List UInt8) : RtRingbuffer × Result := (r.1, .fetched r.2)

def apply (rb : RtRingbuffer) : Op → RtRingbuffer × Result
  | .put ptr length => stored (rtRingbufferPut rb ptr length)
  | .putchar ch => stored (rtRingbufferPutchar rb ch)
  | .get length => fetched (rtRingbufferGet rb length)
  | .getchar => fetched (rtRingbufferGetchar rb)
  | .reset => (rtRingbufferReset rb, .done)

/-- The operations on a queue of at most `size` bytes. -/
def Fifo.apply (size : ℕ) (q : List UInt8) : Op → List UInt8 × Result
  | .put ptr length =>
    let n := min length.toNat (size - q.length)
    (q ++ slice ptr 0 n, .stored n)
  | .putchar ch => (q ++ [ch].take (size - q.length), .stored (min 1 (size - q.length)))
  | .get length => (q.drop length.toNat, .fetched (q.take length.toNat))
  | .getchar => (q.drop 1, .fetched (q.take 1))
  | .reset => ([], .done)

theorem stored_spec {r : RtRingbuffer × ℕ} {n size : ℕ} {q' : List UInt8}
    (h : r.2 = n ∧ r.1.bufferSize = size ∧ Holds r.1 q') :
    (stored r).2 = .stored n ∧ (stored r).1.bufferSize = size ∧ Holds (stored r).1 q' :=
  ⟨congrArg Result.stored h.1, h.2⟩

theorem fetched_spec {r : RtRingbuffer × List UInt8} {bytes : List UInt8} {size : ℕ} {q' : List UInt8}
    (h : r.2 = bytes ∧ r.1.bufferSize = size ∧ Holds r.1 q') :
    (fetched r).2 = .fetched bytes ∧ (fetched r).1.bufferSize = size ∧ Holds (fetched r).1 q' :=
  ⟨congrArg Result.fetched h.1, h.2⟩

theorem apply_spec (h : Holds rb q) (op : Op) :
    (apply rb op).2 = (Fifo.apply rb.bufferSize q op).2 ∧ (apply rb op).1.bufferSize = rb.bufferSize ∧
      Holds (apply rb op).1 (Fifo.apply rb.bufferSize q op).1 := by
  cases op with
  | put ptr length => exact stored_spec (put_spec h ptr length)
  | putchar ch => exact stored_spec (putchar_spec h ch)
  | get length => exact fetched_spec (get_spec h length)
  | getchar => exact fetched_spec (getchar_spec h)
  | reset =>
    have hpos := Nat.zero_lt_of_lt h.read_lt
    refine ⟨rfl, rfl, h.size_lt, hpos, Nat.zero_le _, rfl, ?_, ?_⟩
    · simp [apply, rtRingbufferReset, Fifo.apply]
    · simpa [apply, rtRingbufferReset, Fifo.apply] using hpos

/-- For every size and every sequence of operations the buffer gives the results of a queue of at
most that many bytes; the two lengths are those of the queue, and the indices stay in the
buffer. -/
theorem ringbuffer_refines_fifo {k size : ℕ} (pool : ℕ → UInt8) (hpos : 0 < size) (hdvd : 2 ^ k ∣ size)
    (hsize : size < 32768) (ops : List Op) :
    (trace apply (rtRingbufferInit k pool size) ops).2 = (trace (Fifo.apply size) [] ops).2 ∧
      rtRingbufferDataLen (trace apply (rtRingbufferInit k pool size) ops).1 =
        (trace (Fifo.apply size) [] ops).1.length ∧
      rtRingbufferSpaceLen (trace apply (rtRingbufferInit k pool size) ops).1 =
        size - (trace (Fifo.apply size) [] ops).1.length ∧
      (trace apply (rtRingbufferInit k pool size) ops).1.readIndex < size ∧
      (trace apply (rtRingbufferInit k pool size) ops).1.writeIndex < size := by
  have hinit : (rtRingbufferInit k pool size).bufferSize = size := Nat.div_mul_cancel hdvd
  have h0 : Holds (rtRingbufferInit k pool size) [] := by
    refine ⟨by rw [hinit]; exact hsize, by rw [hinit]; exact hpos, Nat.zero_le _, rfl, (Nat.zero_mod _).symm, ?_⟩
    rw [hinit]
    exact iff_of_true rfl hpos
  have hstep : ∀ rb q op, rb.bufferSize = size ∧ Holds rb q → (apply rb op).2 = (Fifo.apply size q op).2 ∧
      (apply rb op).1.bufferSize = size ∧ Holds (apply rb op).1 (Fifo.apply size q op).1 := by
    intro rb q op hR
    have h := apply_spec hR.2 op
    rwa [hR.1] at h
  obtain ⟨hres, hR, hend⟩ := trace_simulation (fun rb q => rb.bufferSize = size ∧ Holds rb q) hstep ops
    ⟨hinit, h0⟩
  have hread := hend.read_lt
  have hwrite := hend.write_lt
  rw [hR] at hread hwrite
  exact ⟨hres, hend.dataLen, by rw [hend.spaceLen, hR], hread, hwrite⟩

/-- Eight bytes: six are put, four are got, and of the next seven six fit, over the end of the
buffer. -/
def wrapOps : List Op :=
  [.put (fun i => i.toUInt8) 6, .get 4, .put (fun i => (10 + i).toUInt8) 7, .getchar, .putchar 9, .get 20]

theorem ringbuffer_refines_fifo_wrap :
    (trace apply (rtRingbufferInit 2 (fun _ => 0) 8) wrapOps).2 =
      [.stored 6, .fetched [0, 1, 2, 3], .stored 6, .fetched [4], .stored 1,
        .fetched [5, 10, 11, 12, 13, 14, 15, 9]] := by
  have h := @ringbuffer_refines_fifo 2 8 (fun _ => 0) (by decide) (by decide) (by decide) wrapOps
  rw [h.1]
  decide

end RtThread.Drivers.RingBuffer
