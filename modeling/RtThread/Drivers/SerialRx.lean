import RtThread.Lib.Ring
import RtThread.Lib.Transition
import RtThread.Lib.Word

/-!
# The receive FIFO of a serial device (`serial.c:257-303`, `331-352`, `1140-1196`)

The interrupt handler stores the bytes and any number of threads read them. The sections in which
interrupts are disabled are the steps. `dropOldest` is what the FIFO is for: a queue of a fixed
capacity that discards its oldest byte when a byte arrives at the full queue.
-/

namespace RtThread.Drivers.SerialRx

open RtThread.Lib.Ring RtThread.Lib.Transition RtThread.Lib.Word

/-- `struct rt_serial_rx_fifo` (`serial.h:109-117`). -/
structure RtSerialRxFifo where
  buffer : ℕ → UInt8
  putIndex : ℕ
  getIndex : ℕ
  isFull : Bool

/-- The FIFO as `rt_serial_open` sets it up (`serial.c:589-598`). -/
def emptyFifo : RtSerialRxFifo := ⟨fun _ => 0, 0, 0, false⟩

/-- An `rt_uint16_t` index is increased and set to zero at `bufsz`. -/
def advance (bufsz x : ℕ) : ℕ := if bufsz ≤ inc 16 x then 0 else inc 16 x

/-- `rt_hw_serial_isr`, `RT_SERIAL_EVENT_RX_IND`, for one byte (`serial.c:1160-1175`). -/
def rxInd (bufsz : ℕ) (fifo : RtSerialRxFifo) (ch : UInt8) : RtSerialRxFifo :=
  let fifo := { fifo with
    buffer := Function.update fifo.buffer fifo.putIndex ch
    putIndex := advance bufsz fifo.putIndex }
  if fifo.putIndex = fifo.getIndex then
    { fifo with getIndex := advance bufsz fifo.getIndex, isFull := true }
  else fifo

/-- One section of `_serial_int_rx` (`serial.c:275-294`). -/
def takeChar (bufsz : ℕ) (fifo : RtSerialRxFifo) : Option (UInt8 × RtSerialRxFifo) :=
  if fifo.getIndex = fifo.putIndex ∧ fifo.isFull = false then none
  else
    some (fifo.buffer fifo.getIndex, { fifo with getIndex := advance bufsz fifo.getIndex, isFull := false })

/-- `_serial_fifo_calc_recved_len` (`serial.c:331-352`). -/
def serialFifoCalcRecvedLen (bufsz : ℕ) (fifo : RtSerialRxFifo) : ℕ :=
  if fifo.putIndex = fifo.getIndex then
    if fifo.isFull = false then 0 else bufsz
  else if fifo.getIndex < fifo.putIndex then fifo.putIndex - fifo.getIndex
  else bufsz - (fifo.getIndex - fifo.putIndex)

/-! ### Readers -/

/-- What the readers and the interrupt handler use. -/
structure Buffer (B : Type*) where
  put : B → UInt8 → B
  take : B → Option (UInt8 × B)
  recvedLen : B → ℕ

def fifoBuffer (bufsz : ℕ) : Buffer RtSerialRxFifo :=
  ⟨rxInd bufsz, takeChar bufsz, serialFifoCalcRecvedLen bufsz⟩

def dropOldest (capacity : ℕ) : Buffer (List UInt8) where
  put q ch := if q.length = capacity then q.tail ++ [ch] else q ++ [ch]
  take
    | [] => none
    | ch :: q => some (ch, q)
  recvedLen q := q.length

/-- A call of `_serial_int_rx`: the bytes still wanted, and those stored at `data`. -/
structure Reader where
  length : ℕ
  data : List UInt8

inductive Act (T : Type*) where
  | receive (ch : UInt8)
  | read (t : T) (length : ℕ)
  | pass (t : T)
  | recvedLen

inductive Output (T : Type*) where
  | none
  | returned (t : T) (data : List UInt8)
  | length (n : ℕ)

variable {B T : Type*} [DecidableEq T]

/-- One pass of the loop of `_serial_int_rx`; the call returns when nothing more is wanted, or there. -/
def pass (b : Buffer B) (s : B × (T → Option Reader)) (t : T) : (B × (T → Option Reader)) × Output T :=
  match s.2 t with
  | none => (s, .none)
  | some r =>
    if r.length = 0 then ((s.1, Function.update s.2 t none), .returned t r.data)
    else
      match b.take s.1 with
      | none => ((s.1, Function.update s.2 t none), .returned t r.data)
      | some (ch, b') => ((b', Function.update s.2 t (some ⟨r.length - 1, r.data ++ [ch]⟩)), .none)

def step (b : Buffer B) (s : B × (T → Option Reader)) : Act T → (B × (T → Option Reader)) × Output T
  | .receive ch => ((b.put s.1 ch, s.2), .none)
  | .read t length =>
    match s.2 t with
    | none => ((s.1, Function.update s.2 t (some ⟨length, []⟩)), .none)
    | some _ => (s, .none)
  | .pass t => pass b s t
  | .recvedLen => (s, .length (b.recvedLen s.1))

/-! ### The simulation -/

/-- Two buffers answer alike as long as they are related. -/
structure Simulates {B' : Type*} (R : B → B' → Prop) (b : Buffer B) (b' : Buffer B') : Prop where
  put : ∀ x y ch, R x y → R (b.put x ch) (b'.put y ch)
  take : ∀ x y, R x y → (b.take x = none ∧ b'.take y = none) ∨
    ∃ ch x' y', b.take x = some (ch, x') ∧ b'.take y = some (ch, y') ∧ R x' y'
  recvedLen : ∀ x y, R x y → b.recvedLen x = b'.recvedLen y

theorem step_simulation {B' : Type*} {R : B → B' → Prop} {b : Buffer B} {b' : Buffer B'} (h : Simulates R b b')
    (s : B × (T → Option Reader)) (s' : B' × (T → Option Reader)) (a : Act T) (hs : R s.1 s'.1 ∧ s.2 = s'.2) :
    (step b s a).2 = (step b' s' a).2 ∧ R (step b s a).1.1 (step b' s' a).1.1 ∧ (step b s a).1.2 = (step b' s' a).1.2 := by
  obtain ⟨x, readers⟩ := s
  obtain ⟨y, readers'⟩ := s'
  obtain ⟨hR, hreaders⟩ := hs
  simp only at hR hreaders
  subst hreaders
  cases a with
  | receive ch => exact ⟨rfl, h.put x y ch hR, rfl⟩
  | read t length =>
    simp only [step]
    cases readers t with
    | none => exact ⟨rfl, hR, rfl⟩
    | some r => exact ⟨rfl, hR, rfl⟩
  | pass t =>
    simp only [step, pass]
    cases readers t with
    | none => exact ⟨rfl, hR, rfl⟩
    | some r =>
      simp only
      by_cases hlen : r.length = 0
      · simp only [if_pos hlen]
        exact ⟨trivial, hR, trivial⟩
      · simp only [if_neg hlen]
        rcases h.take x y hR with ⟨hx, hy⟩ | ⟨ch, x', y', hx, hy, hR'⟩
        · rw [hx, hy]
          exact ⟨rfl, hR, rfl⟩
        · rw [hx, hy]
          exact ⟨rfl, hR', rfl⟩
  | recvedLen => exact ⟨congrArg Output.length (h.recvedLen x y hR), hR, rfl⟩

/-- The FIFO holds the bytes `q`: one cell is always left. -/
structure Holds (bufsz : ℕ) (fifo : RtSerialRxFifo) (q : List UInt8) : Prop where
  get_lt : fifo.getIndex < bufsz
  length_lt : q.length < bufsz
  put_eq : fifo.putIndex = (fifo.getIndex + q.length) % bufsz
  contents_eq : contents fifo.buffer bufsz fifo.getIndex q.length = q
  full : fifo.isFull = true → q ≠ []

variable {bufsz : ℕ} {fifo : RtSerialRxFifo} {q : List UInt8}

theorem advance_eq (hbuf : bufsz < 2 ^ 16) {x : ℕ} (hx : x < bufsz) : advance bufsz x = next bufsz x := by
  rw [advance, inc_of_lt (by omega), next]

theorem Holds.put_lt (h : Holds bufsz fifo q) : fifo.putIndex < bufsz := by
  rw [h.put_eq]
  exact Nat.mod_lt _ (Nat.zero_lt_of_lt h.get_lt)

theorem Holds.put_cases (h : Holds bufsz fifo q) :
    fifo.putIndex = fifo.getIndex + q.length ∨ fifo.putIndex + bufsz = fifo.getIndex + q.length := by
  have hget := h.get_lt
  have hlen := h.length_lt
  rw [h.put_eq]
  by_cases hlt : fifo.getIndex + q.length < bufsz
  · rw [Nat.mod_eq_of_lt hlt]
    exact Or.inl rfl
  · rw [Nat.mod_eq_sub_mod (by omega), Nat.mod_eq_of_lt (by omega)]
    omega

/-- A byte is stored behind the last one. When the put index meets the get index, all cells are in
use, and the oldest byte is given up. -/
theorem Holds.rxInd (hbuf : bufsz < 2 ^ 16) (h : Holds bufsz fifo q) (htwo : 2 ≤ bufsz) (ch : UInt8) :
    Holds bufsz (rxInd bufsz fifo ch) ((dropOldest (bufsz - 1)).put q ch) := by
  have hget := h.get_lt
  have hlen := h.length_lt
  have hstore : contents (Function.update fifo.buffer fifo.putIndex ch) bufsz fifo.getIndex (q.length + 1) = q ++ [ch] := by
    rw [h.put_eq, contents_push fifo.buffer hlen, h.contents_eq]
  have hput : advance bufsz fifo.putIndex = (fifo.getIndex + (q.length + 1)) % bufsz := by
    rw [advance_eq hbuf h.put_lt, h.put_eq, next_add (by omega)]
  have hnext := advance_eq hbuf hget
  have hmeet : advance bufsz fifo.putIndex = fifo.getIndex ↔ q.length = bufsz - 1 := by
    rw [hput]
    constructor
    · intro he
      by_contra hne
      have hne' := @mod_ne_of_lt bufsz fifo.getIndex 0 (q.length + 1) (by omega) (by omega)
      rw [he, Nat.add_zero, Nat.mod_eq_of_lt hget] at hne'
      exact hne' rfl
    · intro he
      rw [he, show fifo.getIndex + (bufsz - 1 + 1) = fifo.getIndex + bufsz by omega, Nat.add_mod_right,
        Nat.mod_eq_of_lt hget]
  unfold SerialRx.rxInd dropOldest
  by_cases hfull : q.length = bufsz - 1
  · simp only [if_pos (hmeet.mpr hfull), if_pos hfull]
    cases q with
    | nil => simp only [List.length_nil] at hfull; omega
    | cons c q =>
      simp only [List.tail_cons]
      rw [contents_cons _ hget, List.cons_append] at hstore
      have hlast := (List.cons.inj hstore).2
      rw [List.length_cons] at hlast hfull hput
      refine ⟨?_, ?_, ?_, ?_, fun _ => by simp⟩
      · rw [hnext]
        exact next_lt hget
      · rw [List.length_append, List.length_singleton]
        omega
      · simp only [hput, hnext, next_eq_mod hget, List.length_append, List.length_singleton, Nat.mod_add_mod]
        congr 1
        omega
      · rw [hnext, List.length_append, List.length_singleton]
        exact hlast
  · simp only [if_neg (fun he => hfull (hmeet.mp he)), if_neg hfull]
    refine ⟨hget, ?_, ?_, ?_, fun _ => by simp⟩
    · rw [List.length_append, List.length_singleton]
      omega
    · rw [hput, List.length_append, List.length_singleton]
    · rw [List.length_append, List.length_singleton]
      exact hstore

theorem Holds.empty_iff (h : Holds bufsz fifo q) : fifo.getIndex = fifo.putIndex ↔ q = [] := by
  have hget := h.get_lt
  have hlen := h.length_lt
  rw [← List.length_eq_zero_iff]
  rcases h.put_cases with hp | hp <;> omega

theorem Holds.takeChar (hbuf : bufsz < 2 ^ 16) (h : Holds bufsz fifo q) :
    (takeChar bufsz fifo = none ∧ q = []) ∨
    ∃ ch q' fifo', takeChar bufsz fifo = some (ch, fifo') ∧ q = ch :: q' ∧ Holds bufsz fifo' q' := by
  have hget := h.get_lt
  unfold SerialRx.takeChar
  cases q with
  | nil =>
    have hfull : fifo.isFull = false := Bool.eq_false_of_not_eq_true fun hf => h.full hf rfl
    rw [if_pos ⟨h.empty_iff.mpr rfl, hfull⟩]
    exact Or.inl ⟨rfl, rfl⟩
  | cons c q =>
    rw [if_neg fun he => by cases h.empty_iff.mp he.1]
    have hc := h.contents_eq
    rw [List.length_cons, contents_cons _ hget] at hc
    obtain ⟨hfront, hrest⟩ := List.cons.inj hc
    refine Or.inr ⟨c, q, _, by rw [hfront], rfl, ?_, ?_, ?_, ?_, fun hf => by cases hf⟩
    · rw [advance_eq hbuf hget]
      exact next_lt hget
    · exact (Nat.lt_succ_self _).trans h.length_lt
    · have hput := h.put_eq
      simp only [advance_eq hbuf hget]
      rw [hput, next_eq_mod hget, List.length_cons, Nat.mod_add_mod]
      congr 1
      omega
    · simp only [advance_eq hbuf hget]
      exact hrest

theorem Holds.recvedLen (h : Holds bufsz fifo q) : serialFifoCalcRecvedLen bufsz fifo = q.length := by
  have hget := h.get_lt
  have hlen := h.length_lt
  have hempty := h.empty_iff
  unfold serialFifoCalcRecvedLen
  by_cases he : fifo.putIndex = fifo.getIndex
  · have hnil := hempty.mp he.symm
    have hfull : fifo.isFull = false := Bool.eq_false_of_not_eq_true fun hf => h.full hf hnil
    rw [if_pos he, if_pos hfull, hnil, List.length_nil]
  · rw [if_neg he]
    rcases h.put_cases with hp | hp
    · rw [if_pos (by omega)]
      omega
    · rw [if_neg (by omega)]
      omega

theorem fifo_simulates (hbuf : bufsz < 2 ^ 16) (htwo : 2 ≤ bufsz) :
    Simulates (Holds bufsz) (fifoBuffer bufsz) (dropOldest (bufsz - 1)) where
  put _ _ ch h := h.rxInd hbuf htwo ch
  take x y h := by
    rcases h.takeChar hbuf with ⟨hx, rfl⟩ | ⟨ch, q', fifo', hx, rfl, h'⟩
    · exact Or.inl ⟨hx, rfl⟩
    · exact Or.inr ⟨ch, fifo', q', hx, rfl, h'⟩
  recvedLen _ _ h := h.recvedLen

theorem emptyFifo_holds (htwo : 2 ≤ bufsz) : Holds bufsz emptyFifo [] where
  get_lt := by simp only [emptyFifo]; omega
  length_lt := by simp only [List.length_nil]; omega
  put_eq := (Nat.zero_mod bufsz).symm
  contents_eq := rfl
  full h := by cases h

/-- In every interleaving of received bytes with the passes of any number of readers, the reads
return what the queue that drops its oldest byte returns, and the computed length is its length. -/
theorem serial_rx_refines (hbuf : bufsz < 2 ^ 16) (htwo : 2 ≤ bufsz) (acts : List (Act T)) :
    (trace (step (fifoBuffer bufsz)) (emptyFifo, fun _ => none) acts).2 =
        (trace (step (dropOldest (bufsz - 1))) ([], fun _ => none) acts).2 ∧
      serialFifoCalcRecvedLen bufsz (trace (step (fifoBuffer bufsz)) (emptyFifo, fun _ => none) acts).1.1 =
        (trace (step (dropOldest (bufsz - 1))) ([], fun _ => none) acts).1.1.length := by
  obtain ⟨hout, hR, -⟩ := trace_simulation
    (fun (s : RtSerialRxFifo × (T → Option Reader)) (s' : List UInt8 × (T → Option Reader)) =>
      Holds bufsz s.1 s'.1 ∧ s.2 = s'.2)
    (step_simulation (fifo_simulates hbuf htwo)) (s := (emptyFifo, fun _ => none)) (t := ([], fun _ => none)) acts
    ⟨emptyFifo_holds htwo, rfl⟩
  exact ⟨hout, hR.recvedLen⟩

/-- Four bytes arrive at a FIFO of three cells; a thread that wants four gets the last two. -/
theorem serial_rx_refines_overrun :
    (trace (step (fifoBuffer 3)) (emptyFifo, fun _ => none)
        ([.receive 65, .receive 66, .receive 67, .receive 68, .recvedLen, .read 0 4, .pass 0, .pass 0, .pass 0] :
          List (Act ℕ))).2 =
      [.none, .none, .none, .none, .length 2, .none, .none, .none, .returned 0 [67, 68]] := by
  rw [(serial_rx_refines (by decide) (by decide) _).1]
  rfl

end RtThread.Drivers.SerialRx
