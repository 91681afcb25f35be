import RtThread.Drivers.Device
import RtThread.Drivers.Pipe

/-!
# Pipes as devices (`pipe.c:315-404`, `device.c:240-414`)

A pipe that is opened, read and written through the device layer. The layer counts the references and
calls `rt_pipe_close` when the last one is given up; the loops of `rt_pipe_read` and `rt_pipe_write` hand
what is left of `count` to a ring buffer whose length parameter has sixteen bits.
-/

namespace RtThread.Drivers.PipeDevice

open RtThread.Drivers.Device RtThread.Drivers.Pipe RtThread.Drivers.RingBuffer
open RtThread.Lib.Flags RtThread.Lib.Ring RtThread.Lib.Transition RtThread.Lib.Word

/-- `struct rt_pipe_device` (`pipe.h:24-40`) behind the device, as far as the device interface uses it. -/
structure RtPipeDevice where
  fifo : Option RtRingbuffer
  bufsz : ℕ

/-- `rt_pipe_open` (`pipe.c:315-330`). -/
def rtPipeOpen (k : ℕ) (pool : Option (ℕ → UInt8)) (dev : RtDevice RtPipeDevice) : RtDevice RtPipeDevice × ℤ :=
  match dev.driver.fifo with
  | none =>
    ({ dev with driver := { dev.driver with fifo := rtRingbufferCreate k pool dev.driver.bufsz } }, rtEok)
  | some _ => (dev, rtEok)

/-- `rt_pipe_close` (`pipe.c:332-348`). -/
def rtPipeClose (dev : RtDevice RtPipeDevice) : RtDevice RtPipeDevice × ℤ :=
  if dev.refCount = 1 then ({ dev with driver := { dev.driver with fifo := none } }, rtEok) else (dev, rtEok)

/-- `pipe_ops` (`pipe.c:411-419`). -/
def pipeOps (k : ℕ) (pool : Option (ℕ → UInt8)) : RtDeviceOps RtPipeDevice where
  deviceInit := none
  deviceOpen := some fun dev _ => rtPipeOpen k pool dev
  deviceClose := some rtPipeClose

/-- The loop of `rt_pipe_read` (`pipe.c:365-371`): `bytes` is in the caller's buffer already. Every round
moves a byte at least, so that `count` rounds are enough. -/
def readLoop (count : ℕ) : ℕ → RtRingbuffer → List UInt8 → RtRingbuffer × List UInt8
  | 0, fifo, bytes => (fifo, bytes)
  | rounds + 1, fifo, bytes =>
    if bytes.length < count then
      let got := rtRingbufferGet fifo (UInt16.ofNat (count - bytes.length))
      if got.2.length = 0 then (got.1, bytes) else readLoop count rounds got.1 (bytes ++ got.2)
    else (fifo, bytes)

/-- `rt_pipe_read` (`pipe.c:350-375`), with the bytes copied to `buffer`: their number is the result;
`none` when there is no ring buffer to get from, which an assertion stops. -/
def rtPipeRead (pipe : RtPipeDevice) (count : ℕ) : Option (RtPipeDevice × List UInt8) :=
  if count = 0 then some (pipe, [])
  else
    pipe.fifo.map fun fifo =>
      let r := readLoop count count fifo []
      ({ pipe with fifo := some r.1 }, r.2)

/-- The loop of `rt_pipe_write` (`pipe.c:394-400`). -/
def writeLoop (pbuf : ℕ → UInt8) (count : ℕ) : ℕ → RtRingbuffer → ℕ → RtRingbuffer × ℕ
  | 0, fifo, writeBytes => (fifo, writeBytes)
  | rounds + 1, fifo, writeBytes =>
    if writeBytes < count then
      let put := rtRingbufferPut fifo (fun i => pbuf (writeBytes + i)) (UInt16.ofNat (count - writeBytes))
      if put.2 = 0 then (put.1, writeBytes) else writeLoop pbuf count rounds put.1 (writeBytes + put.2)
    else (fifo, writeBytes)

/-- `rt_pipe_write` (`pipe.c:377-404`). -/
def rtPipeWrite (pipe : RtPipeDevice) (buffer : ℕ → UInt8) (count : ℕ) : Option (RtPipeDevice × ℕ) :=
  if count = 0 then some (pipe, 0)
  else
    pipe.fifo.map fun fifo =>
      let r := writeLoop buffer count count fifo 0
      ({ pipe with fifo := some r.1 }, r.2)

/-! ### Runs -/

inductive Act where
  | opened (oflag : BitVec 16) (pool : Option (ℕ → UInt8))
  | closed
  | read (count : ℕ)
  | write (buffer : ℕ → UInt8) (count : ℕ)

/-- The pipe as `rt_pipe_create` leaves it (`pipe.c:422-464`). -/
def created (bufsz : ℕ) : RtDevice RtPipeDevice := ⟨0x007, oflagClose, 0, ⟨none, bufsz⟩⟩

/-- `rt_ringbuffer_init` gets its size as an `rt_int16_t`, and its assertion stops one that is not
positive (`ringbuffer.c:34`). -/
def initStops (k : ℕ) (pipe : RtPipeDevice) (pool : Option (ℕ → UInt8)) : Bool :=
  pipe.fifo.isNone && pool.isSome &&
    !(decide (0 < pipe.bufsz / 2 ^ k * 2 ^ k) && decide (pipe.bufsz / 2 ^ k * 2 ^ k < 2 ^ 15))

/-- `rt_device_read` and `rt_device_write` (`device.c:346-414`) return 0 on a device that is not open. -/
def step (k : ℕ) (dev : RtDevice RtPipeDevice) : Act → Option (RtDevice RtPipeDevice)
  | .opened oflag pool =>
    if initStops k dev.driver pool = true then none else (rtDeviceOpen (pipeOps k pool) dev oflag).map Prod.fst
  | .closed => some (rtDeviceClose (pipeOps k none) dev).1
  | .read count =>
    if dev.refCount = 0 then some dev
    else (rtPipeRead dev.driver count).map fun r => { dev with driver := r.1 }
  | .write buffer count =>
    if dev.refCount = 0 then some dev
    else (rtPipeWrite dev.driver buffer count).map fun r => { dev with driver := r.1 }

/-! ### The loops -/

variable {fifo : RtRingbuffer} {q : List UInt8}

/-- The bytes stored and not yet read, in order. -/
def stored (pipe : RtPipeDevice) : List UInt8 :=
  match pipe.fifo with
  | none => []
  | some fifo => contents fifo.buffer fifo.bufferSize fifo.readIndex (rtRingbufferDataLen fifo)

/-- The bytes that still fit. -/
def free (pipe : RtPipeDevice) : ℕ :=
  match pipe.fifo with
  | none => 0
  | some fifo => rtRingbufferSpaceLen fifo

theorem stored_of_holds {pipe : RtPipeDevice} (hf : pipe.fifo = some fifo) (h : Holds fifo q) : stored pipe = q := by
  unfold stored
  rw [hf]
  simp only [h.dataLen]
  exact h.contents_eq

theorem free_of_holds {pipe : RtPipeDevice} (hf : pipe.fifo = some fifo) (h : Holds fifo q) :
    free pipe = fifo.bufferSize - q.length := by
  unfold free
  rw [hf]
  exact h.spaceLen

theorem readLoop_break {count : ℕ} {bytes : List UInt8} (hlt : bytes.length < count)
    (hgot : (rtRingbufferGet fifo (UInt16.ofNat (count - bytes.length))).2.length = 0) (rounds : ℕ) :
    readLoop count (rounds + 1) fifo bytes = ((rtRingbufferGet fifo (UInt16.ofNat (count - bytes.length))).1, bytes) :=
  (if_pos hlt).trans (if_pos hgot)

theorem readLoop_next {count : ℕ} {bytes : List UInt8} (hlt : bytes.length < count)
    (hgot : (rtRingbufferGet fifo (UInt16.ofNat (count - bytes.length))).2.length ≠ 0) (rounds : ℕ) :
    readLoop count (rounds + 1) fifo bytes = readLoop count rounds
      (rtRingbufferGet fifo (UInt16.ofNat (count - bytes.length))).1
      (bytes ++ (rtRingbufferGet fifo (UInt16.ofNat (count - bytes.length))).2) :=
  (if_pos hlt).trans (if_neg hgot)

theorem readLoop_stalls (h : Holds fifo q) {count : ℕ} {bytes : List UInt8}
    (hstall : (count - bytes.length) % 2 ^ 16 = 0 ∨ q = []) (rounds : ℕ) :
    ∃ fifo', readLoop count rounds fifo bytes = (fifo', bytes) ∧ Holds fifo' q := by
  cases rounds with
  | zero => exact ⟨fifo, rfl, h⟩
  | succ rounds =>
    by_cases hlt : bytes.length < count
    · obtain ⟨hgot, -, hrest⟩ := get_spec h (UInt16.ofNat (count - bytes.length))
      rw [UInt16.toNat_ofNat'] at hgot hrest
      have hnil : q.take ((count - bytes.length) % 2 ^ 16) = [] ∧ q.drop ((count - bytes.length) % 2 ^ 16) = q := by
        rcases hstall with hzero | hq
        · rw [hzero]
          exact ⟨List.take_zero, List.drop_zero⟩
        · rw [hq]
          exact ⟨List.take_nil, List.drop_nil⟩
      rw [hnil.1] at hgot
      rw [hnil.2] at hrest
      exact ⟨_, readLoop_break hlt (congrArg List.length hgot) rounds, hrest⟩
    · exact ⟨fifo, if_neg hlt, h⟩

theorem readLoop_spec (h : Holds fifo q) {count rounds : ℕ} (hcount : 0 < count) (hpos : 0 < rounds) :
    ∃ fifo', readLoop count rounds fifo [] = (fifo', q.take (count % 2 ^ 16)) ∧
      Holds fifo' (q.drop (count % 2 ^ 16)) := by
  obtain ⟨rounds, rfl⟩ := Nat.exists_eq_add_one.mpr hpos
  obtain ⟨hgot, -, hrest⟩ := get_spec h (UInt16.ofNat (count - ([] : List UInt8).length))
  rw [UInt16.toNat_ofNat', List.length_nil, Nat.sub_zero] at hgot hrest
  have hlt : ([] : List UInt8).length < count := hcount
  by_cases hzero : (rtRingbufferGet fifo (UInt16.ofNat (count - ([] : List UInt8).length))).2.length = 0
  · rw [readLoop_break hlt hzero]
    rw [List.length_nil, Nat.sub_zero, hgot] at hzero
    rw [List.eq_nil_of_length_eq_zero hzero]
    exact ⟨_, rfl, hrest⟩
  · rw [readLoop_next hlt hzero, List.length_nil, Nat.sub_zero, List.nil_append, hgot]
    apply readLoop_stalls hrest
    by_cases hle : count % 2 ^ 16 ≤ q.length
    · apply Or.inl
      rw [List.length_take_of_le hle]
      omega
    · exact Or.inr (List.drop_of_length_le (by omega))

theorem writeLoop_break (pbuf : ℕ → UInt8) {count writeBytes : ℕ} (hlt : writeBytes < count)
    (hput : (rtRingbufferPut fifo (fun i => pbuf (writeBytes + i)) (UInt16.ofNat (count - writeBytes))).2 = 0)
    (rounds : ℕ) : writeLoop pbuf count (rounds + 1) fifo writeBytes =
      ((rtRingbufferPut fifo (fun i => pbuf (writeBytes + i)) (UInt16.ofNat (count - writeBytes))).1, writeBytes) :=
  (if_pos hlt).trans (if_pos hput)

theorem writeLoop_next (pbuf : ℕ → UInt8) {count writeBytes : ℕ} (hlt : writeBytes < count)
    (hput : (rtRingbufferPut fifo (fun i => pbuf (writeBytes + i)) (UInt16.ofNat (count - writeBytes))).2 ≠ 0)
    (rounds : ℕ) : writeLoop pbuf count (rounds + 1) fifo writeBytes = writeLoop pbuf count rounds
      (rtRingbufferPut fifo (fun i => pbuf (writeBytes + i)) (UInt16.ofNat (count - writeBytes))).1
      (writeBytes + (rtRingbufferPut fifo (fun i => pbuf (writeBytes + i)) (UInt16.ofNat (count - writeBytes))).2) :=
  (if_pos hlt).trans (if_neg hput)

theorem writeLoop_stalls (h : Holds fifo q) {pbuf : ℕ → UInt8} {count writeBytes : ℕ}
    (hstall : (count - writeBytes) % 2 ^ 16 = 0 ∨ fifo.bufferSize - q.length = 0) (rounds : ℕ) :
    ∃ fifo', writeLoop pbuf count rounds fifo writeBytes = (fifo', writeBytes) ∧ Holds fifo' q := by
  cases rounds with
  | zero => exact ⟨fifo, rfl, h⟩
  | succ rounds =>
    by_cases hlt : writeBytes < count
    · obtain ⟨hput, -, hrest⟩ := put_spec h (fun i => pbuf (writeBytes + i)) (UInt16.ofNat (count - writeBytes))
      have hnone : min ((count - writeBytes) % 2 ^ 16) (fifo.bufferSize - q.length) = 0 := by omega
      rw [UInt16.toNat_ofNat', hnone] at hput hrest
      rw [show slice (fun i => pbuf (writeBytes + i)) 0 0 = [] from rfl, List.append_nil] at hrest
      exact ⟨_, writeLoop_break pbuf hlt hput rounds, hrest⟩
    · exact ⟨fifo, if_neg hlt, h⟩

theorem writeLoop_spec (h : Holds fifo q) (pbuf : ℕ → UInt8) {count rounds : ℕ} (hcount : 0 < count)
    (hpos : 0 < rounds) :
    ∃ fifo', writeLoop pbuf count rounds fifo 0 = (fifo', min (count % 2 ^ 16) (fifo.bufferSize - q.length)) ∧
      Holds fifo' (q ++ slice pbuf 0 (min (count % 2 ^ 16) (fifo.bufferSize - q.length))) := by
  obtain ⟨rounds, rfl⟩ := Nat.exists_eq_add_one.mpr hpos
  obtain ⟨hput, hsize, hrest⟩ := put_spec h (fun i => pbuf (0 + i)) (UInt16.ofNat (count - 0))
  rw [show (UInt16.ofNat (count - 0)).toNat = count % 2 ^ 16 from UInt16.toNat_ofNat'] at hput hrest
  have hslice : ∀ n, slice (fun i => pbuf (0 + i)) 0 n = slice pbuf 0 n := by
    intro n
    simp only [Nat.zero_add]
  rw [hslice] at hrest
  by_cases hzero : (rtRingbufferPut fifo (fun i => pbuf (0 + i)) (UInt16.ofNat (count - 0))).2 = 0
  · rw [writeLoop_break pbuf hcount hzero, ← hput, hzero]
    rw [← hput, hzero] at hrest
    exact ⟨_, rfl, hrest⟩
  · rw [writeLoop_next pbuf hcount hzero, hput, Nat.zero_add]
    apply writeLoop_stalls hrest
    rw [hsize, List.length_append, length_slice]
    omega

/-! ### What a call transfers -/

/-- `rt_pipe_read` removes, copies and returns as many of the oldest bytes as it can. -/
def ReadsExactly (pipe : RtPipeDevice) (count : ℕ) : Prop :=
  ∃ pipe' bytes, rtPipeRead pipe count = some (pipe', bytes) ∧ bytes.length = min count (stored pipe).length ∧
    stored pipe = bytes ++ stored pipe'

/-- `rt_pipe_write` appends and returns as many bytes as fit. -/
def WritesExactly (pipe : RtPipeDevice) (buffer : ℕ → UInt8) (count : ℕ) : Prop :=
  ∃ pipe' n, rtPipeWrite pipe buffer count = some (pipe', n) ∧ n = min count (free pipe) ∧
    stored pipe' = stored pipe ++ slice buffer 0 n

variable {pipe : RtPipeDevice} {k bufsz : ℕ} {dev dev' : RtDevice RtPipeDevice}

theorem rtPipeRead_spec (hf : pipe.fifo = some fifo) (h : Holds fifo q) (count : ℕ) :
    ∃ fifo', rtPipeRead pipe count = some ({ pipe with fifo := some fifo' }, q.take (count % 2 ^ 16)) ∧
      Holds fifo' (q.drop (count % 2 ^ 16)) := by
  obtain ⟨_, bufsz⟩ := pipe
  cases hf
  unfold rtPipeRead
  by_cases hzero : count = 0
  · rw [if_pos hzero, hzero]
    exact ⟨fifo, rfl, h⟩
  · rw [if_neg hzero]
    obtain ⟨fifo', hloop, hrest⟩ := readLoop_spec h (Nat.pos_of_ne_zero hzero) (Nat.pos_of_ne_zero hzero)
    rw [Option.map_some, hloop]
    exact ⟨fifo', rfl, hrest⟩

theorem rtPipeWrite_spec (hf : pipe.fifo = some fifo) (h : Holds fifo q) (buffer : ℕ → UInt8) (count : ℕ) :
    ∃ fifo', rtPipeWrite pipe buffer count =
        some ({ pipe with fifo := some fifo' }, min (count % 2 ^ 16) (fifo.bufferSize - q.length)) ∧
      Holds fifo' (q ++ slice buffer 0 (min (count % 2 ^ 16) (fifo.bufferSize - q.length))) := by
  obtain ⟨_, bufsz⟩ := pipe
  cases hf
  unfold rtPipeWrite
  by_cases hzero : count = 0
  · rw [if_pos hzero, hzero, Nat.zero_mod, Nat.zero_min, show slice buffer 0 0 = [] from rfl, List.append_nil]
    exact ⟨fifo, rfl, h⟩
  · rw [if_neg hzero]
    obtain ⟨fifo', hloop, hrest⟩ := writeLoop_spec h buffer (Nat.pos_of_ne_zero hzero) (Nat.pos_of_ne_zero hzero)
    rw [Option.map_some, hloop]
    exact ⟨fifo', rfl, hrest⟩

theorem readsExactly_iff (hf : pipe.fifo = some fifo) (h : Holds fifo q) (count : ℕ) :
    ReadsExactly pipe count ↔ count < 2 ^ 16 ∨ (stored pipe).length ≤ count % 2 ^ 16 := by
  obtain ⟨fifo', hread, hrest⟩ := rtPipeRead_spec hf h count
  have hlen : (q.take (count % 2 ^ 16)).length = min (count % 2 ^ 16) q.length := List.length_take
  rw [stored_of_holds hf h]
  constructor
  · rintro ⟨pipe', bytes, hres, hn, -⟩
    rw [hread] at hres
    cases hres
    rw [hlen, stored_of_holds hf h] at hn
    omega
  · intro hsmall
    refine ⟨_, _, hread, ?_, ?_⟩
    · rw [hlen, stored_of_holds hf h]
      omega
    · rw [stored_of_holds hf h, stored_of_holds rfl hrest, List.take_append_drop]

theorem writesExactly_iff (hf : pipe.fifo = some fifo) (h : Holds fifo q) (buffer : ℕ → UInt8) (count : ℕ) :
    WritesExactly pipe buffer count ↔ count < 2 ^ 16 ∨ free pipe ≤ count % 2 ^ 16 := by
  obtain ⟨fifo', hwrite, hrest⟩ := rtPipeWrite_spec hf h buffer count
  rw [free_of_holds hf h]
  constructor
  · rintro ⟨pipe', n, hres, hn, -⟩
    rw [hwrite] at hres
    cases hres
    rw [free_of_holds hf h] at hn
    omega
  · intro hsmall
    refine ⟨_, _, hwrite, ?_, ?_⟩
    · rw [free_of_holds hf h]
      omega
    · rw [stored_of_holds hf h, stored_of_holds rfl hrest]

/-! ### The device -/

theorem activate_pipe (k : ℕ) (pool : Option (ℕ → UInt8)) (dev : RtDevice RtPipeDevice) :
    ∃ flag, activate (pipeOps k pool) dev = ({ dev with flag := flag }, rtEok) ∧
      has flag flagStandalone = has dev.flag flagStandalone := by
  unfold activate
  by_cases hactive : has dev.flag flagActivated = true
  · rw [if_pos hactive]
    exact ⟨dev.flag, rfl, rfl⟩
  · rw [if_neg hactive]
    refine ⟨dev.flag ||| flagActivated, rfl, ?_⟩
    rw [has_or, show has flagActivated flagStandalone = false by decide, Bool.or_false]

theorem rtPipeOpen_eq (k : ℕ) (pool : Option (ℕ → UInt8)) (dev : RtDevice RtPipeDevice) :
    rtPipeOpen k pool dev =
      ({ dev with driver := { dev.driver with
          fifo := dev.driver.fifo.or (rtRingbufferCreate k pool dev.driver.bufsz) } }, rtEok) := by
  obtain ⟨flag, openFlag, refCount, fifo, bufsz⟩ := dev
  cases fifo with
  | none => rfl
  | some fifo => rfl

/-- What a call of `rt_device_open` that returns leaves behind. -/
theorem rtDeviceOpen_pipe {pool : Option (ℕ → UInt8)} {oflag : BitVec 16}
    (hflag : has dev.flag flagStandalone = false)
    (h : (rtDeviceOpen (pipeOps k pool) dev oflag).map Prod.fst = some dev') :
    inc 8 dev.refCount ≠ 0 ∧ ∃ flag openFlag, has flag flagStandalone = false ∧
      dev' = ⟨flag, openFlag, inc 8 dev.refCount,
        ⟨dev.driver.fifo.or (rtRingbufferCreate k pool dev.driver.bufsz), dev.driver.bufsz⟩⟩ := by
  obtain ⟨flag, hact, hstand⟩ := activate_pipe k pool dev
  rw [hflag] at hstand
  have hcall : callOpen (pipeOps k pool) { dev with flag := flag } oflag =
      rtPipeOpen k pool { dev with flag := flag } := rfl
  unfold rtDeviceOpen at h
  rw [hact] at h
  simp only [hcall, rtPipeOpen_eq, hstand] at h
  rw [if_neg (by decide), if_neg (by simp), if_pos (by decide)] at h
  by_cases hzero : inc 8 dev.refCount = 0
  · rw [if_neg (not_not.mpr hzero)] at h
    cases h
  · rw [if_pos hzero] at h
    cases h
    exact ⟨hzero, flag, _, hstand, rfl⟩

/-- The callback sees the count that `rt_device_close` has decremented already: the ring buffer stays. -/
theorem rtDeviceClose_pipe (k : ℕ) (dev : RtDevice RtPipeDevice) :
    ∃ openFlag, (rtDeviceClose (pipeOps k none) dev).1 =
      { dev with openFlag := openFlag, refCount := dev.refCount - 1 } := by
  unfold rtDeviceClose
  by_cases hzero : dev.refCount = 0
  · rw [if_pos hzero, hzero]
    refine ⟨dev.openFlag, ?_⟩
    rw [Nat.zero_sub, ← hzero]
  · rw [if_neg hzero, dec_of_pos (Nat.pos_of_ne_zero hzero)]
    simp only
    by_cases hlast : dev.refCount - 1 = 0
    · rw [if_neg (not_not.mpr hlast), hlast]
      exact ⟨oflagClose, rfl⟩
    · rw [if_pos hlast]
      exact ⟨dev.openFlag, rfl⟩

/-- A ring buffer that exists holds some bytes, and the device may be opened more than once. -/
structure Inv (dev : RtDevice RtPipeDevice) : Prop where
  shared : has dev.flag flagStandalone = false
  refCount_lt : dev.refCount < 2 ^ 8
  holds : ∀ fifo ∈ dev.driver.fifo, ∃ q, Holds fifo q

theorem holds_create {pool : ℕ → UInt8} (hpos : 0 < bufsz / 2 ^ k * 2 ^ k) (hlt : bufsz / 2 ^ k * 2 ^ k < 2 ^ 15) :
    Holds (rtRingbufferInit k pool (bufsz / 2 ^ k * 2 ^ k)) [] := by
  have halign : bufsz / 2 ^ k * 2 ^ k / 2 ^ k = bufsz / 2 ^ k := Nat.mul_div_cancel _ (Nat.two_pow_pos k)
  have hinit := @holds_init k (bufsz / 2 ^ k * 2 ^ k) pool (Nat.le_of_dvd hpos (Nat.dvd_mul_left _ _)) hlt
  rw [halign] at hinit
  exact hinit

theorem Inv.opened (h : Inv dev) {oflag : BitVec 16} {pool : Option (ℕ → UInt8)}
    (hstep : step k dev (.opened oflag pool) = some dev') : Inv dev' := by
  simp only [step] at hstep
  by_cases hstops : initStops k dev.driver pool = true
  · rw [if_pos hstops] at hstep
    cases hstep
  · rw [if_neg hstops] at hstep
    obtain ⟨-, flag, openFlag, hstand, rfl⟩ := rtDeviceOpen_pipe h.shared hstep
    refine ⟨hstand, inc_lt 8 _, ?_⟩
    intro fifo hfifo
    simp only at hfifo
    cases hold : dev.driver.fifo with
    | some old =>
      rw [hold] at hfifo
      cases hfifo
      exact h.holds fifo hold
    | none =>
      cases pool with
      | none =>
        rw [hold] at hfifo
        cases hfifo
      | some pool =>
        rw [hold] at hfifo
        cases hfifo
        unfold initStops at hstops
        rw [hold] at hstops
        simp only [Option.isNone_none, Option.isSome_some, Bool.true_and, Bool.not_eq_true', Bool.not_eq_false,
          Bool.and_eq_true, decide_eq_true_eq] at hstops
        exact ⟨[], holds_create hstops.1 hstops.2⟩

theorem rtPipeRead_keeps {pipe' : RtPipeDevice} {count : ℕ} {bytes : List UInt8}
    (hholds : ∀ fifo ∈ pipe.fifo, ∃ q, Holds fifo q) (h : rtPipeRead pipe count = some (pipe', bytes)) :
    (pipe'.fifo.isSome = pipe.fifo.isSome) ∧ ∀ fifo ∈ pipe'.fifo, ∃ q, Holds fifo q := by
  cases hf : pipe.fifo with
  | none =>
    unfold rtPipeRead at h
    rw [hf] at h
    split at h
    · cases h
      exact ⟨congrArg Option.isSome hf, hholds⟩
    · cases h
  | some fifo =>
    obtain ⟨q, hq⟩ := hholds fifo hf
    obtain ⟨fifo', hread, hrest⟩ := rtPipeRead_spec hf hq count
    rw [hread] at h
    cases h
    refine ⟨rfl, fun f hmem => ?_⟩
    cases hmem
    exact ⟨_, hrest⟩

theorem rtPipeWrite_keeps {pipe' : RtPipeDevice} {buffer : ℕ → UInt8} {count n : ℕ}
    (hholds : ∀ fifo ∈ pipe.fifo, ∃ q, Holds fifo q) (h : rtPipeWrite pipe buffer count = some (pipe', n)) :
    (pipe'.fifo.isSome = pipe.fifo.isSome) ∧ ∀ fifo ∈ pipe'.fifo, ∃ q, Holds fifo q := by
  cases hf : pipe.fifo with
  | none =>
    unfold rtPipeWrite at h
    rw [hf] at h
    split at h
    · cases h
      exact ⟨congrArg Option.isSome hf, hholds⟩
    · cases h
  | some fifo =>
    obtain ⟨q, hq⟩ := hholds fifo hf
    obtain ⟨fifo', hwrite, hrest⟩ := rtPipeWrite_spec hf hq buffer count
    rw [hwrite] at h
    cases h
    refine ⟨rfl, fun f hmem => ?_⟩
    cases hmem
    exact ⟨_, hrest⟩

theorem step_transfer {a : Act} (h : Inv dev) (hstep : step k dev a = some dev')
    (ha : (∃ count, a = .read count) ∨ ∃ buffer count, a = .write buffer count) :
    dev'.refCount = dev.refCount ∧ dev'.driver.fifo.isSome = dev.driver.fifo.isSome ∧ Inv dev' := by
  rcases ha with ⟨count, rfl⟩ | ⟨buffer, count, rfl⟩
  · simp only [step] at hstep
    split at hstep
    · cases hstep
      exact ⟨rfl, rfl, h⟩
    · obtain ⟨⟨pipe, bytes⟩, hread, rfl⟩ := Option.map_eq_some_iff.mp hstep
      obtain ⟨hsome, hholds⟩ := rtPipeRead_keeps h.holds hread
      exact ⟨rfl, hsome, h.shared, h.refCount_lt, hholds⟩
  · simp only [step] at hstep
    split at hstep
    · cases hstep
      exact ⟨rfl, rfl, h⟩
    · obtain ⟨⟨pipe, n⟩, hwrite, rfl⟩ := Option.map_eq_some_iff.mp hstep
      obtain ⟨hsome, hholds⟩ := rtPipeWrite_keeps h.holds hwrite
      exact ⟨rfl, hsome, h.shared, h.refCount_lt, hholds⟩

theorem inv_created (bufsz : ℕ) : Inv (created bufsz) where
  shared := show has (0x007 : BitVec 16) flagStandalone = false by decide
  refCount_lt := Nat.two_pow_pos 8
  holds fifo hfifo := (by cases hfifo)

theorem step_inv {a : Act} (h : Inv dev) (hstep : step k dev a = some dev') : Inv dev' := by
  cases a with
  | opened oflag pool => exact h.opened hstep
  | closed =>
    cases hstep
    obtain ⟨openFlag, heq⟩ := rtDeviceClose_pipe k dev
    rw [heq]
    exact ⟨h.shared, (Nat.sub_le _ _).trans_lt h.refCount_lt, h.holds⟩
  | read count => exact (step_transfer h hstep (Or.inl ⟨count, rfl⟩)).2.2
  | write buffer count => exact (step_transfer h hstep (Or.inr ⟨buffer, count, rfl⟩)).2.2

/-- At every fill level a pipe reaches, `rt_pipe_read` and `rt_pipe_write` transfer what they can exactly
if the sixteen bits of the ring buffer's length parameter do not cut `count` below it. -/
theorem pipe_transfers_iff {acts : List Act} (hrun : exec (step k) (created bufsz) acts = some dev)
    (hfifo : dev.driver.fifo.isSome = true) (buffer : ℕ → UInt8) (count : ℕ) :
    (ReadsExactly dev.driver count ↔ count < 65536 ∨ (stored dev.driver).length ≤ count % 65536) ∧
      (WritesExactly dev.driver buffer count ↔ count < 65536 ∨ free dev.driver ≤ count % 65536) := by
  obtain ⟨fifo, hf⟩ := Option.isSome_iff_exists.mp hfifo
  have hinv := exec_inv Inv (fun _ _ _ h hstep => step_inv h hstep) (inv_created bufsz) hrun
  obtain ⟨q, hq⟩ := hinv.holds fifo hf
  exact ⟨readsExactly_iff hf hq count, writesExactly_iff hf hq buffer count⟩

/-- Five bytes are written and two of them read, from a ring buffer of eight. -/
def shortRun : List Act := [.opened 3 (some fun _ => 0), .write (fun i => UInt8.ofNat i) 5, .read 2]

theorem pipe_transfers_iff_short : ∃ dev, exec (step 2) (created 8) shortRun = some dev ∧
    ReadsExactly dev.driver 65539 ∧ WritesExactly dev.driver (fun _ => 7) 4 := by
  have hrun : (exec (step 2) (created 8) shortRun).map (fun dev => (dev.driver.fifo.isSome, stored dev.driver)) =
      some (true, [2, 3, 4]) := by decide
  obtain ⟨dev, hdev, heq⟩ := Option.map_eq_some_iff.mp hrun
  obtain ⟨hfifo, hstored⟩ := Prod.mk.inj heq
  have htransfers := pipe_transfers_iff hdev hfifo (fun _ => 7)
  refine ⟨dev, hdev, (htransfers 65539).1.mpr (Or.inr ?_), (htransfers 4).2.mpr (Or.inl (by decide))⟩
  rw [hstored]
  decide

/-- Three bytes are stored, and a read of 65536 bytes returns none of them. -/
theorem pipe_read_nothing : ∃ dev, exec (step 2) (created 8) shortRun = some dev ∧ stored dev.driver = [2, 3, 4] ∧
    (rtPipeRead dev.driver 65536).map Prod.snd = some [] ∧ ¬ReadsExactly dev.driver 65536 := by
  have hrun : (exec (step 2) (created 8) shortRun).map (fun dev => (stored dev.driver,
      (rtPipeRead dev.driver 65536).map Prod.snd)) = some ([2, 3, 4], some []) := by decide
  obtain ⟨dev, hdev, heq⟩ := Option.map_eq_some_iff.mp hrun
  obtain ⟨hstored, hread⟩ := Prod.mk.inj heq
  refine ⟨dev, hdev, hstored, hread, ?_⟩
  rintro ⟨pipe', bytes, hres, hlen, -⟩
  rw [hres] at hread
  cases hread
  rw [hstored] at hlen
  cases hlen

/-! ### The buffer's lifetime -/

/-- There is a ring buffer exactly while the device is open. -/
def FollowsOpen (dev : RtDevice RtPipeDevice) : Prop := dev.driver.fifo.isSome = true ↔ 0 < dev.refCount

/-- The first open gets memory for the ring buffer, and no close gives up the last reference. -/
def StaysOpen (dev : RtDevice RtPipeDevice) : Act → Prop
  | .opened _ pool => dev.refCount = 0 → pool.isSome = true
  | .closed => dev.refCount ≠ 1
  | .read _ => True
  | .write _ _ => True

theorem step_follows_iff {a : Act} (h : Inv dev) (hf : FollowsOpen dev) (hstep : step k dev a = some dev') :
    FollowsOpen dev' ↔ StaysOpen dev a := by
  have hlt := h.refCount_lt
  unfold FollowsOpen StaysOpen at *
  cases a with
  | opened oflag pool =>
    simp only [step] at hstep
    by_cases hstops : initStops k dev.driver pool = true
    · rw [if_pos hstops] at hstep
      cases hstep
    · rw [if_neg hstops] at hstep
      obtain ⟨hne, flag, openFlag, -, rfl⟩ := rtDeviceOpen_pipe h.shared hstep
      have hcreate : (rtRingbufferCreate k pool dev.driver.bufsz).isSome = pool.isSome := Option.isSome_map
      simp only [Option.isSome_or, hcreate, Bool.or_eq_true, hf]
      constructor
      · intro hiff hzero
        have hsome := hiff.mpr (Nat.pos_of_ne_zero hne)
        exact hsome.resolve_left (by omega)
      · intro hpool
        refine iff_of_true ?_ (Nat.pos_of_ne_zero hne)
        by_cases hzero : dev.refCount = 0
        · exact Or.inr (hpool hzero)
        · exact Or.inl (Nat.pos_of_ne_zero hzero)
  | closed =>
    cases hstep
    obtain ⟨openFlag, heq⟩ := rtDeviceClose_pipe k dev
    rw [heq]
    simp only [hf]
    omega
  | read count =>
    obtain ⟨href, hsome, -⟩ := step_transfer h hstep (Or.inl ⟨count, rfl⟩)
    rw [href, hsome]
    exact iff_of_true hf trivial
  | write buffer count =>
    obtain ⟨href, hsome, -⟩ := step_transfer h hstep (Or.inr ⟨buffer, count, rfl⟩)
    rw [href, hsome]
    exact iff_of_true hf trivial

/-- Along a run there is a ring buffer exactly while the device is open, precisely if the first open gets
memory and the last reference is never given up: the close callback waits for a count of one, and is
called with zero. -/
theorem fifo_follows_open_iff (k bufsz : ℕ) (acts : List Act) :
    AllStates (step k) FollowsOpen (created bufsz) acts ↔ AllSteps (step k) StaysOpen (created bufsz) acts :=
  allStates_iff_allSteps Inv FollowsOpen StaysOpen (fun _ _ _ h hstep => step_inv h hstep)
    (fun _ _ _ h hf hstep => step_follows_iff h hf hstep) acts (inv_created bufsz)
    (iff_of_false (fun hsome => by cases hsome) (lt_irrefl 0))

/-- One open, one byte written, and one close: the ring buffer is still there, and the next open finds
the byte. -/
theorem fifo_survives_close :
    (exec (step 2) (created 8) [.opened 3 (some fun _ => 0), .write (fun _ => 7) 1, .closed]).map
        (fun dev => (dev.refCount, dev.driver.fifo.isSome)) = some (0, true) ∧
      (exec (step 2) (created 8) [.opened 3 (some fun _ => 0), .write (fun _ => 7) 1, .closed, .opened 3 none]).map
        (fun dev => stored dev.driver) = some [7] ∧
      ¬AllStates (step 2) FollowsOpen (created 8) [.opened 3 (some fun _ => 0), .write (fun _ => 7) 1, .closed] := by
  refine ⟨by decide, by decide, fun hall => ?_⟩
  have hlast := ((hall.2 _ rfl).2 _ rfl).2 _ rfl
  exact absurd (hlast.mp (by decide)) (by decide)

end RtThread.Drivers.PipeDevice
