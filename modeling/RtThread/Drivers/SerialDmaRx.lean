import RtThread.Drivers.SerialRx
import RtThread.Drivers.RingBufferForce

/-!
# The receive FIFO of a serial device with DMA (`serial.c:331-497`)

The DMA controller stores what it receives behind the put index, around the end of the buffer, and then the put index
is moved. A reader takes its bytes in at most two parts. Each of the two is one step.
-/

namespace RtThread.Drivers.SerialDmaRx

open RtThread.Lib.Ring RtThread.Lib.Transition
open RtThread.Drivers.SerialRx (RtSerialRxFifo emptyFifo serialFifoCalcRecvedLen)
open RtThread.Drivers.RingBuffer (overwrite length_overwrite)

/-- `rt_dma_recv_update_get_index` (`serial.c:374-390`); its assertion may fail. -/
def rtDmaRecvUpdateGetIndex (bufsz : ℕ) (fifo : RtSerialRxFifo) (len : ℕ) : Option RtSerialRxFifo :=
  if len ≤ serialFifoCalcRecvedLen bufsz fifo then
    let fifo := if fifo.isFull = true ∧ len ≠ 0 then { fifo with isFull := false } else fifo
    let fifo := { fifo with getIndex := (fifo.getIndex + len) % 2 ^ 16 }
    some (if bufsz ≤ fifo.getIndex then { fifo with getIndex := fifo.getIndex % bufsz } else fifo)
  else none

/-- The put index, and whether it has come to the get index or passed it (`serial.c:404-430`). -/
def movePutIndex (bufsz : ℕ) (fifo : RtSerialRxFifo) (len : ℕ) : RtSerialRxFifo :=
  if fifo.getIndex ≤ fifo.putIndex then
    let fifo := { fifo with putIndex := (fifo.putIndex + len) % 2 ^ 16 }
    if bufsz ≤ fifo.putIndex then
      let fifo := { fifo with putIndex := fifo.putIndex % bufsz }
      if fifo.getIndex ≤ fifo.putIndex then { fifo with isFull := true } else fifo
    else fifo
  else
    let fifo := { fifo with putIndex := (fifo.putIndex + len) % 2 ^ 16 }
    if fifo.getIndex ≤ fifo.putIndex then
      let fifo := if bufsz ≤ fifo.putIndex then { fifo with putIndex := fifo.putIndex % bufsz } else fifo
      { fifo with isFull := true }
    else fifo

/-- `rt_dma_recv_update_put_index` (`serial.c:398-437`). -/
def rtDmaRecvUpdatePutIndex (bufsz : ℕ) (fifo : RtSerialRxFifo) (len : ℕ) : RtSerialRxFifo :=
  let fifo := movePutIndex bufsz fifo len
  let fifo := if fifo.isFull = true then { fifo with getIndex := fifo.putIndex } else fifo
  if bufsz ≤ fifo.getIndex then { fifo with getIndex := 0 } else fifo

/-- What the controller has stored, and the interrupt that says so. -/
def dmaReceive (bufsz : ℕ) (fifo : RtSerialRxFifo) (data : List UInt8) : RtSerialRxFifo :=
  rtDmaRecvUpdatePutIndex bufsz { fifo with buffer := store bufsz fifo.buffer fifo.putIndex data } data.length

/-- `_serial_dma_rx` for a device with a FIFO (`serial.c:471-495`): the bytes at `data`. A negative length
becomes a large one. -/
def serialDmaRx (bufsz : ℕ) (fifo : RtSerialRxFifo) (length : ℤ) : Option (List UInt8 × RtSerialRxFifo) :=
  let fifoRecvedLen := serialFifoCalcRecvedLen bufsz fifo
  let recvLen := if length < fifoRecvedLen then (length % 2 ^ 32).toNat else fifoRecvedLen
  let data :=
    if fifo.getIndex + recvLen < bufsz then slice fifo.buffer fifo.getIndex recvLen
    else slice fifo.buffer fifo.getIndex (bufsz - fifo.getIndex) ++
      slice fifo.buffer 0 (recvLen + fifo.getIndex - bufsz)
  (rtDmaRecvUpdateGetIndex bufsz fifo recvLen).map fun fifo => (data, fifo)

/-! ### What the FIFO holds -/

/-- The indices of a FIFO with `n` unread bytes. -/
structure Counts (bufsz : ℕ) (fifo : RtSerialRxFifo) (n : ℕ) : Prop where
  get_lt : fifo.getIndex < bufsz
  length_le : n ≤ bufsz
  put_eq : fifo.putIndex = (fifo.getIndex + n) % bufsz
  full : fifo.isFull = true ↔ n = bufsz

structure Holds (bufsz : ℕ) (fifo : RtSerialRxFifo) (q : List UInt8) : Prop where
  counts : Counts bufsz fifo q.length
  contents_eq : contents fifo.buffer bufsz fifo.getIndex q.length = q

variable {bufsz n len : ℕ} {fifo : RtSerialRxFifo} {q : List UInt8}

theorem emptyFifo_holds (hpos : 1 ≤ bufsz) : Holds bufsz emptyFifo [] where
  counts := ⟨hpos, Nat.zero_le _, (Nat.zero_mod bufsz).symm,
    iff_of_false Bool.false_ne_true (by rw [List.length_nil]; omega)⟩
  contents_eq := rfl

theorem Counts.put_lt (h : Counts bufsz fifo n) : fifo.putIndex < bufsz := by
  rw [h.put_eq]
  exact Nat.mod_lt _ (Nat.zero_lt_of_lt h.get_lt)

theorem Counts.put_cases (h : Counts bufsz fifo n) :
    fifo.putIndex = fifo.getIndex + n ∨ fifo.putIndex + bufsz = fifo.getIndex + n := by
  have hget := h.get_lt
  have hlen := h.length_le
  rw [h.put_eq]
  by_cases hlt : fifo.getIndex + n < bufsz
  · rw [Nat.mod_eq_of_lt hlt]
    exact Or.inl rfl
  · rw [Nat.mod_eq_sub_mod (by omega), Nat.mod_eq_of_lt (by omega)]
    omega

theorem Counts.recvedLen (h : Counts bufsz fifo n) : serialFifoCalcRecvedLen bufsz fifo = n := by
  have hget := h.get_lt
  have hput := h.put_lt
  have hlen := h.length_le
  have hcases := h.put_cases
  unfold serialFifoCalcRecvedLen
  by_cases he : fifo.putIndex = fifo.getIndex
  · rw [if_pos he]
    split
    · rename_i hfull
      have hne : ¬n = bufsz := fun heq => by
        rw [h.full.mpr heq] at hfull
        cases hfull
      omega
    · rename_i hfull
      exact (h.full.mp (Bool.eq_true_of_not_eq_false hfull)).symm
  · rw [if_neg he]
    split <;> omega

theorem Holds.take_eq (h : Holds bufsz fifo q) {k : ℕ} (hk : k ≤ q.length) :
    contents fifo.buffer bufsz fifo.getIndex k = q.take k := by
  have hsplit := @contents_add _ fifo.buffer bufsz fifo.getIndex k (q.length - k)
  rw [Nat.add_sub_of_le hk, h.contents_eq] at hsplit
  exact ((congrArg (List.take k) hsplit).trans (List.take_left' (length_contents ..))).symm

theorem Holds.drop_eq (h : Holds bufsz fifo q) {k : ℕ} (hk : k ≤ q.length) :
    contents fifo.buffer bufsz ((fifo.getIndex + k) % bufsz) (q.length - k) = q.drop k := by
  have hsplit := @contents_add _ fifo.buffer bufsz fifo.getIndex k (q.length - k)
  rw [Nat.add_sub_of_le hk, h.contents_eq] at hsplit
  exact ((congrArg (List.drop k) hsplit).trans (List.drop_left' (length_contents ..))).symm

/-! ### Receiving -/

theorem mod_of_wraps {bufsz x : ℕ} (hle : bufsz ≤ x) (hlt : x < 2 * bufsz) : x % bufsz = x - bufsz := by
  rw [Nat.mod_eq_sub_mod hle, Nat.mod_eq_of_lt (by omega)]

/-- Where the put index is after a block of `len` bytes. It meets the get index exactly if the block takes all of the
room that was left. -/
theorem movePutIndex_spec (hbuf : bufsz ≤ 32767) (h : Counts bufsz fifo n) (hlen : len ≤ bufsz) :
    (movePutIndex bufsz fifo len).putIndex = (fifo.putIndex + len) % bufsz ∧
      ((movePutIndex bufsz fifo len).isFull = true ↔ bufsz ≤ n + len) ∧
      (movePutIndex bufsz fifo len).getIndex = fifo.getIndex ∧
      (movePutIndex bufsz fifo len).buffer = fifo.buffer := by
  have hget := h.get_lt
  have hput := h.put_lt
  have hcases := h.put_cases
  have hn := h.length_le
  have hfull := h.full
  have h16 : (fifo.putIndex + len) % 2 ^ 16 = fifo.putIndex + len := Nat.mod_eq_of_lt (by omega)
  unfold movePutIndex
  simp only [h16]
  by_cases hwrap : bufsz ≤ fifo.putIndex + len
  · have hmod : (fifo.putIndex + len) % bufsz = fifo.putIndex + len - bufsz := mod_of_wraps hwrap (by omega)
    simp only [hmod, if_pos hwrap]
    split
    · rename_i hle
      split
      · rename_i hmeets
        exact ⟨rfl, iff_of_true rfl (by omega), rfl, rfl⟩
      · rename_i hbefore
        exact ⟨rfl, hfull.trans (by omega), rfl, rfl⟩
    · rename_i hgt
      rw [if_pos (show fifo.getIndex ≤ fifo.putIndex + len by omega)]
      exact ⟨rfl, iff_of_true rfl (by omega), rfl, rfl⟩
  · have hmod : (fifo.putIndex + len) % bufsz = fifo.putIndex + len := Nat.mod_eq_of_lt (by omega)
    simp only [hmod, if_neg hwrap]
    split
    · rename_i hle
      exact ⟨rfl, hfull.trans (by omega), rfl, rfl⟩
    · rename_i hgt
      split
      · rename_i hmeets
        exact ⟨rfl, iff_of_true rfl (by omega), rfl, rfl⟩
      · rename_i hbefore
        exact ⟨rfl, hfull.trans (by omega), rfl, rfl⟩

theorem updatePutIndex_spec (hbuf : bufsz ≤ 32767) (h : Counts bufsz fifo n) (hlen : len ≤ bufsz) :
    (rtDmaRecvUpdatePutIndex bufsz fifo len).putIndex = (fifo.putIndex + len) % bufsz ∧
      ((rtDmaRecvUpdatePutIndex bufsz fifo len).isFull = true ↔ bufsz ≤ n + len) ∧
      (rtDmaRecvUpdatePutIndex bufsz fifo len).getIndex = (fifo.getIndex + (n + len - bufsz)) % bufsz ∧
      (rtDmaRecvUpdatePutIndex bufsz fifo len).buffer = fifo.buffer := by
  have hget := h.get_lt
  have hpos : 0 < bufsz := Nat.zero_lt_of_lt hget
  obtain ⟨hput, hfull, hgets, hbuffer⟩ := movePutIndex_spec hbuf h hlen
  unfold rtDmaRecvUpdatePutIndex
  simp only
  by_cases hover : bufsz ≤ n + len
  · have hfollows : (fifo.getIndex + (n + len - bufsz)) % bufsz = (fifo.putIndex + len) % bufsz := by
      rw [h.put_eq, Nat.mod_add_mod, ← Nat.add_mod_right]
      congr 1
      omega
    rw [if_pos (hfull.mpr hover)]
    simp only [hput, if_neg (not_le.mpr (Nat.mod_lt (fifo.putIndex + len) hpos))]
    exact ⟨trivial, hfull, hfollows.symm, hbuffer⟩
  · have hstays : (fifo.getIndex + (n + len - bufsz)) % bufsz = fifo.getIndex := by
      rw [Nat.sub_eq_zero_of_le (by omega), Nat.add_zero, Nat.mod_eq_of_lt hget]
    rw [if_neg fun hx => hover (hfull.mp hx), hgets, if_neg (not_le.mpr hget), hstays]
    exact ⟨hput, hfull, hgets, hbuffer⟩

theorem Holds.receive (hbuf : bufsz ≤ 32767) (h : Holds bufsz fifo q) {data : List UInt8}
    (hdata : data.length ≤ bufsz) : Holds bufsz (dmaReceive bufsz fifo data) (overwrite bufsz q data) := by
  have hget := h.counts.get_lt
  have hlen := h.counts.length_le
  have hstored : Counts bufsz { fifo with buffer := store bufsz fifo.buffer fifo.putIndex data } q.length :=
    ⟨hget, hlen, h.counts.put_eq, h.counts.full⟩
  obtain ⟨hput, hfull, hgets, hbuffer⟩ := updatePutIndex_spec hbuf hstored hdata
  have hlength : (overwrite bufsz q data).length = q.length + data.length - (q.length + data.length - bufsz) := by
    rw [length_overwrite]
    omega
  obtain ⟨d, hd⟩ : ∃ d, d = q.length + data.length - bufsz := ⟨_, rfl⟩
  rw [← hd] at hgets hlength
  have hput' : (dmaReceive bufsz fifo data).putIndex = (fifo.putIndex + data.length) % bufsz := hput
  have hget' : (dmaReceive bufsz fifo data).getIndex = (fifo.getIndex + d) % bufsz := hgets
  have hbuffer' : (dmaReceive bufsz fifo data).buffer = store bufsz fifo.buffer fifo.putIndex data := hbuffer
  have hdrop : d ≤ q.length := by omega
  refine ⟨⟨?_, by omega, ?_, hfull.trans (by omega)⟩, ?_⟩
  · rw [hget']
    exact Nat.mod_lt _ (by omega)
  · rw [hget', hput', hlength, h.counts.put_eq, Nat.mod_add_mod, Nat.mod_add_mod]
    congr 1
    omega
  · have hplace : fifo.putIndex = ((fifo.getIndex + d) % bufsz + (q.length - d)) % bufsz := by
      rw [h.counts.put_eq, Nat.mod_add_mod]
      congr 1
      omega
    have hcount : q.length + data.length - d = q.length - d + data.length := by omega
    rw [hget', hbuffer', hlength, hcount, hplace, contents_store (by omega), h.drop_eq hdrop, overwrite, ← hd,
      List.drop_append_of_le_length hdrop]

/-! ### Reading -/

theorem updateGetIndex_spec (hbuf : bufsz ≤ 32767) (h : Counts bufsz fifo n) (hlen : len ≤ n) :
    ∃ fifo', rtDmaRecvUpdateGetIndex bufsz fifo len = some fifo' ∧ Counts bufsz fifo' (n - len) ∧
      fifo'.getIndex = (fifo.getIndex + len) % bufsz ∧ fifo'.buffer = fifo.buffer := by
  have hget := h.get_lt
  have hn := h.length_le
  have hfull := h.full
  have h16 : (fifo.getIndex + len) % 2 ^ 16 = fifo.getIndex + len := Nat.mod_eq_of_lt (by omega)
  obtain ⟨fifo₁, hfifo₁⟩ : ∃ fifo₁, fifo₁ = if fifo.isFull = true ∧ len ≠ 0 then { fifo with isFull := false }
    else fifo := ⟨_, rfl⟩
  have hsame : fifo₁.getIndex = fifo.getIndex ∧ fifo₁.putIndex = fifo.putIndex ∧ fifo₁.buffer = fifo.buffer := by
    rw [hfifo₁]
    split <;> exact ⟨rfl, rfl, rfl⟩
  have hfull₁ : fifo₁.isFull = true ↔ n - len = bufsz := by
    rw [hfifo₁]
    split
    · rename_i hread
      have hfulln := hfull.mp hread.1
      exact iff_of_false Bool.false_ne_true (by omega)
    · rename_i hread
      rw [hfull]
      rw [hfull, not_and, not_not] at hread
      constructor
      · intro heq
        have hzero := hread heq
        omega
      · intro heq
        omega
  refine ⟨{ fifo₁ with getIndex := (fifo.getIndex + len) % bufsz }, ?_, ⟨?_, by omega, ?_, hfull₁⟩, rfl, hsame.2.2⟩
  · rw [rtDmaRecvUpdateGetIndex, h.recvedLen, if_pos hlen, ← hfifo₁]
    simp only [hsame.1, h16]
    split
    · rfl
    · rename_i hlt
      rw [Nat.mod_eq_of_lt (show fifo.getIndex + len < bufsz by omega)]
  · exact Nat.mod_lt _ (by omega)
  · simp only [hsame.2.1, h.put_eq, Nat.mod_add_mod]
    congr 1
    omega

theorem Holds.read (hbuf : bufsz ≤ 32767) (h : Holds bufsz fifo q) {length : ℤ} (hlength : 0 ≤ length) :
    ∃ fifo', serialDmaRx bufsz fifo length = some (q.take length.toNat, fifo') ∧
      Holds bufsz fifo' (q.drop length.toNat) := by
  have hget := h.counts.get_lt
  have hlen := h.counts.length_le
  obtain ⟨k, hk⟩ : ∃ k, k = min length.toNat q.length := ⟨_, rfl⟩
  have hrecv : (if length < q.length then (length % 2 ^ 32).toNat else q.length) = k := by
    split <;> omega
  obtain ⟨fifo', hupdate, hcounts, hget', hbuffer⟩ := updateGetIndex_spec hbuf h.counts (show k ≤ q.length by omega)
  have hdata : (if fifo.getIndex + k < bufsz then slice fifo.buffer fifo.getIndex k
      else slice fifo.buffer fifo.getIndex (bufsz - fifo.getIndex) ++ slice fifo.buffer 0 (k + fifo.getIndex - bufsz)) =
        q.take k := by
    rw [← h.take_eq (show k ≤ q.length by omega)]
    split
    · exact (contents_eq_slice fifo.buffer (by omega)).symm
    · rw [contents_eq_slices fifo.buffer hget (by omega) (by omega),
        show k - (bufsz - fifo.getIndex) = k + fifo.getIndex - bufsz by omega]
  have htake : q.take length.toNat = q.take k := by
    rw [hk, ← List.take_take, List.take_length]
  have hdrop : q.drop length.toNat = q.drop k := by
    by_cases hle : length.toNat ≤ q.length
    · rw [hk, min_eq_left hle]
    · rw [List.drop_of_length_le (by omega), List.drop_of_length_le (by omega)]
  refine ⟨fifo', ?_, ?_⟩
  · simp only [serialDmaRx, h.counts.recvedLen, hrecv, hupdate, Option.map_some, hdata, htake]
  · rw [hdrop]
    refine ⟨?_, ?_⟩
    · rw [List.length_drop]
      exact hcounts
    · rw [List.length_drop, hget', hbuffer, h.drop_eq (by omega)]

theorem updateGetIndex_none (h : Counts bufsz fifo n) (hlen : n < len) :
    rtDmaRecvUpdateGetIndex bufsz fifo len = none := by
  rw [rtDmaRecvUpdateGetIndex, h.recvedLen, if_neg (not_le.mpr hlen)]

theorem serialDmaRx_negative (hbuf : bufsz ≤ 32767) (h : Counts bufsz fifo n) {length : ℤ} (hlow : -2 ^ 31 ≤ length)
    (hneg : length < 0) : serialDmaRx bufsz fifo length = none := by
  have hn := h.length_le
  have hrecv : (if length < n then (length % 2 ^ 32).toNat else n) = (length + 2 ^ 32).toNat := by
    rw [if_pos (by omega)]
    omega
  have hnone := updateGetIndex_none h (show n < (length + 2 ^ 32).toNat by omega)
  simp only [serialDmaRx, h.recvedLen, hrecv, hnone, Option.map_none]

/-! ### Runs -/

/-- `received` and `unread` are history: all bytes that have come in, and how many of the last ones no reader has had
and no later byte has replaced. -/
structure Sys where
  fifo : RtSerialRxFifo
  received : List UInt8
  unread : ℕ

def start : Sys := ⟨emptyFifo, [], 0⟩

inductive Act where
  | receive (data : List UInt8)
  | read (length : ℕ)

def step (bufsz : ℕ) (s : Sys) : Act → Option Sys
  | .receive data =>
    if 1 ≤ data.length ∧ data.length ≤ bufsz then
      some ⟨dmaReceive bufsz s.fifo data, s.received ++ data, min bufsz (s.unread + data.length)⟩
    else none
  | .read length =>
    (serialDmaRx bufsz s.fifo length).map fun r => ⟨r.2, s.received, s.unread - r.1.length⟩

/-- The FIFO holds the last unread bytes. -/
structure Inv (bufsz : ℕ) (s : Sys) : Prop where
  holds : Holds bufsz s.fifo (s.received.rtake s.unread)
  unread_le : s.unread ≤ s.received.length

variable {s s' : Sys}

theorem length_rtake {l : List UInt8} (h : n ≤ l.length) : (l.rtake n).length = n := by
  rw [List.rtake, List.length_drop]
  omega

theorem Inv.recvedLen (h : Inv bufsz s) : serialFifoCalcRecvedLen bufsz s.fifo = s.unread := by
  rw [h.holds.counts.recvedLen, length_rtake h.unread_le]

theorem rtake_overwrite {received data : List UInt8} {unread : ℕ} (h : unread ≤ received.length) :
    overwrite bufsz (received.rtake unread) data = (received ++ data).rtake (min bufsz (unread + data.length)) := by
  have hlength := length_rtake h
  have hsplit : received = received.take (received.length - unread) ++ received.rtake unread :=
    (List.take_append_drop _ _).symm
  rw [overwrite, hlength, List.rtake, List.rtake, List.length_append,
    ← List.drop_append_of_le_length (Nat.sub_le _ _), List.drop_drop]
  congr 1
  omega

theorem rtake_drop {l : List UInt8} {unread : ℕ} (h : unread ≤ l.length) (k : ℕ) :
    (l.rtake unread).drop k = l.rtake (unread - min k unread) := by
  rw [List.rtake, List.rtake, List.drop_drop]
  by_cases hk : k ≤ unread
  · congr 1
    omega
  · rw [List.drop_of_length_le (by omega), List.drop_of_length_le (by omega)]

theorem start_inv (hpos : 1 ≤ bufsz) : Inv bufsz start := ⟨emptyFifo_holds hpos, le_rfl⟩

theorem step_inv (hbuf : bufsz ≤ 32767) (h : Inv bufsz s) {a : Act} (hs : step bufsz s a = some s') : Inv bufsz s' := by
  cases a with
  | receive data =>
    simp only [step, Option.ite_none_right_eq_some, Option.some.injEq] at hs
    obtain ⟨⟨-, hdata⟩, rfl⟩ := hs
    refine ⟨?_, ?_⟩
    · rw [← rtake_overwrite h.unread_le]
      exact h.holds.receive hbuf hdata
    · have hunread := h.unread_le
      simp only [List.length_append]
      omega
  | read length =>
    obtain ⟨fifo', hread, hholds⟩ := h.holds.read hbuf (Int.natCast_nonneg length)
    simp only [step, hread, Option.map_some, Option.some.injEq] at hs
    subst hs
    rw [Int.toNat_natCast, rtake_drop h.unread_le] at hholds
    refine ⟨?_, (Nat.sub_le _ _).trans h.unread_le⟩
    rw [Int.toNat_natCast, List.length_take, length_rtake h.unread_le]
    exact hholds

/-- At all times: the unread bytes are the last ones received, as many as there is room for, their number is what
the device reports, and a read gets the first of them. -/
theorem dma_rx_bookkeeping (hpos : 1 ≤ bufsz) (hbuf : bufsz ≤ 32767) {acts : List Act}
    (hrun : exec (step bufsz) start acts = some s) :
    s.fifo.putIndex < bufsz ∧ s.fifo.getIndex < bufsz ∧ s.unread ≤ bufsz ∧ s.unread ≤ s.received.length ∧
      serialFifoCalcRecvedLen bufsz s.fifo = s.unread ∧
      ∀ length : ℕ, ∃ fifo',
        serialDmaRx bufsz s.fifo length = some ((s.received.rtake s.unread).take length, fifo') := by
  have h : Inv bufsz s := exec_inv (Inv bufsz) (fun _ _ _ h hs => step_inv hbuf h hs) (start_inv hpos) hrun
  have hcounts := h.holds.counts
  have hunread := hcounts.length_le
  rw [length_rtake h.unread_le] at hunread
  refine ⟨hcounts.put_lt, hcounts.get_lt, hunread, h.unread_le, h.recvedLen, fun length => ?_⟩
  obtain ⟨fifo', hread, -⟩ := h.holds.read hbuf (Int.natCast_nonneg length)
  rw [Int.toNat_natCast] at hread
  exact ⟨fifo', hread⟩

/-- Four bytes arrive in a buffer of five cells, one is read, and three more arrive. -/
theorem dma_rx_bookkeeping_sample : ∃ s,
    exec (step 5) start [.receive [1, 2, 3, 4], .read 1, .receive [5, 6, 7]] = some s ∧
    serialFifoCalcRecvedLen 5 s.fifo = 5 ∧ ∃ fifo', serialDmaRx 5 s.fifo 9 = some ([3, 4, 5, 6, 7], fifo') := by
  have hrun : (exec (step 5) start [.receive [1, 2, 3, 4], .read 1, .receive [5, 6, 7]]).map
      (fun s => (s.received, s.unread)) = some ([1, 2, 3, 4, 5, 6, 7], 5) := by decide
  obtain ⟨s, hs, hvalues⟩ := Option.map_eq_some_iff.mp hrun
  obtain ⟨hreceived, hunread⟩ := Prod.mk.inj hvalues
  obtain ⟨-, -, -, -, hlength, hread⟩ := dma_rx_bookkeeping (by decide) (by decide) hs
  rw [hunread] at hlength
  have hnine := hread 9
  rw [hreceived, hunread] at hnine
  exact ⟨s, hs, hlength, hnine⟩

end RtThread.Drivers.SerialDmaRx
