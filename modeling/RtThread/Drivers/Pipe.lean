import RtThread.Drivers.RingBuffer

/-!
# Pipes behind file descriptors (`pipe.c:20-249`, `ringbuffer.c:326-360`)

One thread reads from a pipe and any number of threads write to it, each through a descriptor of its
own. A call that waits gives the lock up, so the sections between two waits are the steps; a wait may
end at any time. The run keeps what was written and what was received beside the pipe.
-/

namespace RtThread.Drivers.Pipe

open RtThread.Drivers.RingBuffer RtThread.Lib.Ring RtThread.Lib.Transition RtThread.Lib.Word

def eagain : ℤ := 11
def epipe : ℤ := 32

/-- `fd->flags & O_ACCMODE`. -/
inductive AccMode where
  | rdonly
  | wronly
  | rdwr
  deriving DecidableEq, Repr

def AccMode.reads : AccMode → Bool
  | .rdonly => true
  | .wronly => false
  | .rdwr => true

def AccMode.writes : AccMode → Bool
  | .rdonly => false
  | .wronly => true
  | .rdwr => true

/-- `struct rt_pipe_device` (`pipe.h:24-40`); `readers`, `writers` and `ref_count` have eight bits. -/
structure RtPipe where
  isNamed : Bool
  fifo : Option RtRingbuffer
  bufsz : ℕ
  readers : ℕ
  writers : ℕ
  refCount : ℕ

/-- `rt_ringbuffer_create`: `pool` is the memory `rt_malloc` hands out, if any. -/
def rtRingbufferCreate (k : ℕ) (pool : Option (ℕ → UInt8)) (size : ℕ) : Option RtRingbuffer :=
  pool.map fun pool => rtRingbufferInit k pool (size / 2 ^ k * 2 ^ k)

/-- `pipe_fops_open` (`pipe.c:20-54`). -/
def pipeFopsOpen (k : ℕ) (pool : Option (ℕ → UInt8)) (mode : AccMode) (pipe : RtPipe) : RtPipe :=
  let pipe := if pipe.refCount = 0 then { pipe with fifo := rtRingbufferCreate k pool pipe.bufsz } else pipe
  { pipe with
    readers := if mode.reads = true then inc 8 pipe.readers else pipe.readers
    writers := if mode.writes = true then inc 8 pipe.writers else pipe.writers
    refCount := inc 8 pipe.refCount }

/-- `pipe_fops_close` (`pipe.c:56-107`); `none` when `rt_ringbuffer_destroy` is called without a ring
buffer, which its assertion stops. -/
def pipeFopsClose (mode : AccMode) (pipe : RtPipe) : Option RtPipe :=
  let pipe := { pipe with
    readers := if mode.reads = true then dec 8 pipe.readers else pipe.readers
    writers := if mode.writes = true then dec 8 pipe.writers else pipe.writers }
  if pipe.refCount = 1 then
    if pipe.fifo.isSome = true then some { pipe with fifo := none, refCount := 0 } else none
  else some { pipe with refCount := dec 8 pipe.refCount }

/-- An unnamed pipe is deleted when its last descriptor is closed. -/
def isDeleted (pipe : RtPipe) : Bool := decide (pipe.refCount = 0) && !pipe.isNamed

/-- How a section ends: the call returns, or it waits on its queue. -/
inductive Outcome where
  | returned (ret : ℤ)
  | waits
  deriving DecidableEq, Repr

/-- One pass of the loop of `pipe_fops_read` (`pipe.c:145-172`), with the bytes copied to `buf`; `none`
when there is no ring buffer. -/
def readPass (pipe : RtPipe) (nonblock : Bool) (count : ℕ) : Option (RtPipe × List UInt8 × Outcome) :=
  if pipe.writers = 0 then some (pipe, [], .returned 0)
  else
    pipe.fifo.map fun fifo =>
      let got := rtRingbufferGet fifo (UInt16.ofNat count)
      let pipe := { pipe with fifo := some got.1 }
      if 0 < got.2.length then (pipe, got.2, .returned got.2.length)
      else if nonblock = true then (pipe, got.2, .returned (-eagain))
      else (pipe, got.2, .waits)

/-- One pass of the loop of `pipe_fops_write` (`pipe.c:203-239`) after `ret` bytes of `buf` are
written, with the number of bytes then written. -/
def writePass (pipe : RtPipe) (nonblock : Bool) (buf : List UInt8) (ret : ℕ) : Option (RtPipe × ℕ × Outcome) :=
  if pipe.readers = 0 then some (pipe, ret, .returned (if ret = 0 then -epipe else ret))
  else
    pipe.fifo.map fun fifo =>
      let put := rtRingbufferPut fifo (fun i => buf.getD (ret + i) 0) (UInt16.ofNat (buf.length - ret))
      let pipe := { pipe with fifo := some put.1 }
      let ret := ret + put.2
      if ret = buf.length then (pipe, ret, .returned ret)
      else if nonblock = true then (pipe, ret, .returned (if ret = 0 then -eagain else ret))
      else (pipe, ret, .waits)

/-! ### Runs -/

inductive Reader where
  | unopened
  | idle (nonblock : Bool)
  | reading (nonblock : Bool) (count : ℕ)
  | closed
  deriving DecidableEq, Repr

def Reader.descriptors : Reader → ℕ
  | .unopened => 0
  | .idle _ => 1
  | .reading _ _ => 1
  | .closed => 0

inductive Writer where
  | closed
  | idle (nonblock : Bool)
  | writing (nonblock : Bool) (buf : List UInt8) (ret : ℕ)
  deriving DecidableEq, Repr

/-- `beforeClose` is what was written before the last writer closed, and `eof` is what was received
and what should have been when a read returned 0 for the first time. -/
structure Sys (T : Type*) where
  pipe : RtPipe
  deleted : Bool
  reader : Reader
  writer : T → Writer
  opened : Finset T
  written : List UInt8
  received : List UInt8
  beforeClose : List UInt8
  eof : Option (List UInt8 × List UInt8)

inductive Act (T : Type*) where
  | openReader (nonblock : Bool) (pool : Option (ℕ → UInt8))
  | closeReader
  | openWriter (t : T) (nonblock : Bool) (pool : Option (ℕ → UInt8))
  | closeWriter (t : T)
  | read (count : ℕ)
  | readPass
  | write (t : T) (buf : List UInt8)
  | writePass (t : T)

variable {T : Type*}

/-- The pipe as `rt_pipe_create` leaves it. -/
def created (isNamed : Bool) (bufsz : ℕ) : Sys T :=
  ⟨⟨isNamed, none, bufsz, 0, 0, 0⟩, false, .unopened, fun _ => .closed, ∅, [], [], [], none⟩

/-- A read ends with `outcome`. -/
def Sys.readEnds (s : Sys T) (nonblock : Bool) (count : ℕ) : Outcome → Sys T
  | .waits => { s with reader := .reading nonblock count }
  | .returned ret => { s with
      reader := .idle nonblock
      eof := if ret = 0 then s.eof.or (some (s.received, s.beforeClose)) else s.eof }

def Sys.writeEnds [DecidableEq T] (s : Sys T) (t : T) (nonblock : Bool) (buf : List UInt8) (ret : ℕ) : Outcome → Sys T
  | .waits => { s with writer := Function.update s.writer t (.writing nonblock buf ret) }
  | .returned _ => { s with writer := Function.update s.writer t (.idle nonblock) }

/-- The writer `t` has closed its descriptor. -/
def Sys.writerCloses [DecidableEq T] (s : Sys T) (t : T) (pipe : RtPipe) : Sys T :=
  { s with
    pipe := pipe
    deleted := isDeleted pipe
    writer := Function.update s.writer t .closed
    opened := s.opened.erase t
    beforeClose := if s.opened.erase t = ∅ then s.written else s.beforeClose }

def step [DecidableEq T] (k : ℕ) (s : Sys T) : Act T → Option (Sys T)
  | .openReader nonblock pool =>
    if s.deleted = false ∧ s.reader = .unopened then
      some { s with pipe := pipeFopsOpen k pool .rdonly s.pipe, reader := .idle nonblock }
    else none
  | .closeReader =>
    match s.reader with
    | .idle _ =>
      (pipeFopsClose .rdonly s.pipe).map fun pipe =>
        { s with pipe := pipe, deleted := isDeleted pipe, reader := .closed }
    | _ => none
  | .openWriter t nonblock pool =>
    if s.deleted = false ∧ s.writer t = .closed then
      some { s with
        pipe := pipeFopsOpen k pool .wronly s.pipe
        writer := Function.update s.writer t (.idle nonblock)
        opened := insert t s.opened }
    else none
  | .closeWriter t =>
    match s.writer t with
    | .idle _ => (pipeFopsClose .wronly s.pipe).map (s.writerCloses t)
    | _ => none
  | .read count =>
    match s.reader with
    | .idle nonblock =>
      -- the count of the writers is read before the lock is taken
      if s.pipe.writers = 0 then some (s.readEnds nonblock count (.returned 0))
      else some { s with reader := .reading nonblock count }
    | _ => none
  | .readPass =>
    match s.reader with
    | .reading nonblock count =>
      (readPass s.pipe nonblock count).map fun r =>
        { s with pipe := r.1, received := s.received ++ r.2.1 }.readEnds nonblock count r.2.2
    | _ => none
  | .write t buf =>
    match s.writer t with
    | .idle nonblock =>
      if s.pipe.readers = 0 then some s
      else if buf.length = 0 then some s
      else some { s with writer := Function.update s.writer t (.writing nonblock buf 0) }
    | _ => none
  | .writePass t =>
    match s.writer t with
    | .writing nonblock buf ret =>
      (writePass s.pipe nonblock buf ret).map fun r =>
        { s with pipe := r.1, written := s.written ++ (buf.drop ret).take (r.2.1 - ret) }.writeEnds
          t nonblock buf r.2.1 r.2.2
    | _ => none

/-- A pipe has at most 255 descriptors, and the ring buffer is empty when a read finds no writer and
is the first to return 0. -/
def DrainedAtEnd (s : Sys T) : Act T → Prop
  | .openReader _ _ => s.opened.card + s.reader.descriptors < 255
  | .openWriter _ _ _ => s.opened.card + s.reader.descriptors < 255
  | .read _ => s.eof = none → s.pipe.writers = 0 → ∀ fifo ∈ s.pipe.fifo, rtRingbufferDataLen fifo = 0
  | .readPass => s.eof = none → s.pipe.writers = 0 → ∀ fifo ∈ s.pipe.fifo, rtRingbufferDataLen fifo = 0
  | _ => True

/-- What the reader had received when a read first returned 0 is what was written before the last
writer closed. -/
def Delivered (s : Sys T) : Prop := ∀ e ∈ s.eof, e.1 = e.2

/-! ### What the ring buffer holds -/

/-- The bytes `q` are stored and not yet read. -/
def Pending (pipe : RtPipe) (q : List UInt8) : Prop :=
  match pipe.fifo with
  | none => q = []
  | some fifo => Holds fifo q

theorem Pending.of_fifo {pipe pipe' : RtPipe} {q : List UInt8} (h : Pending pipe q) (he : pipe'.fifo = pipe.fifo) :
    Pending pipe' q := by
  unfold Pending
  rw [he]
  exact h

theorem Pending.eq_nil {pipe : RtPipe} {q : List UInt8} (h : Pending pipe q)
    (hempty : ∀ fifo ∈ pipe.fifo, rtRingbufferDataLen fifo = 0) : q = [] := by
  unfold Pending at h
  cases hf : pipe.fifo with
  | none =>
    rw [hf] at h
    exact h
  | some fifo =>
    rw [hf] at h
    have hlen := hempty fifo hf
    rw [Holds.dataLen h] at hlen
    exact List.eq_nil_of_length_eq_zero hlen

theorem holds_init {k size : ℕ} (pool : ℕ → UInt8) (hpos : 2 ^ k ≤ size) (hlt : size < 2 ^ 15) :
    Holds (rtRingbufferInit k pool (size / 2 ^ k * 2 ^ k)) [] := by
  have hk : 0 < 2 ^ k := Nat.two_pow_pos k
  have hsize : size / 2 ^ k * 2 ^ k / 2 ^ k * 2 ^ k = size / 2 ^ k * 2 ^ k := by
    rw [Nat.mul_div_cancel _ hk]
  have hle := Nat.div_mul_le_self size (2 ^ k)
  have hone : 0 < size / 2 ^ k * 2 ^ k := Nat.mul_pos (Nat.div_pos hpos hk) hk
  unfold rtRingbufferInit
  rw [hsize]
  constructor <;> simp only [List.length_nil, Nat.add_zero]
  · omega
  · exact hone
  · exact Nat.zero_le _
  · rfl
  · exact (Nat.zero_mod _).symm
  · exact iff_of_true trivial hone

theorem slice_getD (buf : List UInt8) {ret n : ℕ} (h : ret + n ≤ buf.length) :
    slice (fun i => buf.getD (ret + i) 0) 0 n = (buf.drop ret).take n := by
  apply List.ext_getElem
  · rw [length_slice, List.length_take, List.length_drop]
    omega
  · intro i h1 h2
    rw [length_slice] at h1
    simp [slice, List.getElem?_eq_getElem (show ret + i < buf.length by omega)]

theorem pipeFopsOpen_spec (k : ℕ) (pool : Option (ℕ → UInt8)) (mode : AccMode) (pipe : RtPipe) :
    (pipeFopsOpen k pool mode pipe).bufsz = pipe.bufsz ∧
      (pipeFopsOpen k pool mode pipe).readers = (if mode.reads = true then inc 8 pipe.readers else pipe.readers) ∧
      (pipeFopsOpen k pool mode pipe).writers = (if mode.writes = true then inc 8 pipe.writers else pipe.writers) ∧
      (pipeFopsOpen k pool mode pipe).refCount = inc 8 pipe.refCount := by
  unfold pipeFopsOpen
  by_cases href : pipe.refCount = 0
  · simp only [if_pos href]
    exact ⟨trivial, trivial, trivial, trivial⟩
  · simp only [if_neg href]
    exact ⟨trivial, trivial, trivial, trivial⟩

theorem pipeFopsClose_spec {mode : AccMode} {pipe pipe' : RtPipe} (h : pipeFopsClose mode pipe = some pipe') :
    pipe'.bufsz = pipe.bufsz ∧
      pipe'.readers = (if mode.reads = true then dec 8 pipe.readers else pipe.readers) ∧
      pipe'.writers = (if mode.writes = true then dec 8 pipe.writers else pipe.writers) ∧
      pipe'.refCount = dec 8 pipe.refCount ∧
      (pipe.refCount = 1 ∧ pipe'.fifo = none ∨ pipe.refCount ≠ 1 ∧ pipe'.fifo = pipe.fifo) := by
  unfold pipeFopsClose at h
  simp only at h
  by_cases href : pipe.refCount = 1
  · rw [if_pos href] at h
    split at h
    · cases h
      refine ⟨rfl, rfl, rfl, ?_, Or.inl ⟨href, rfl⟩⟩
      rw [href]
      rfl
    · cases h
  · rw [if_neg href] at h
    cases h
    exact ⟨rfl, rfl, rfl, rfl, Or.inr ⟨href, rfl⟩⟩

theorem readPass_spec {pipe pipe' : RtPipe} {nonblock : Bool} {count : ℕ} {q data : List UInt8} {o : Outcome}
    (h : Pending pipe q) (hr : readPass pipe nonblock count = some (pipe', data, o)) :
    (∃ fifo, pipe' = { pipe with fifo := fifo }) ∧ (∃ q', q = data ++ q' ∧ Pending pipe' q') ∧
      (o = .returned 0 → pipe.writers = 0 ∧ data = []) := by
  unfold readPass at hr
  by_cases hw : pipe.writers = 0
  · rw [if_pos hw] at hr
    cases hr
    exact ⟨⟨pipe.fifo, rfl⟩, ⟨q, rfl, h⟩, fun _ => ⟨hw, rfl⟩⟩
  · rw [if_neg hw] at hr
    obtain ⟨fifo, hf, hr⟩ := Option.map_eq_some_iff.mp hr
    unfold Pending at h
    rw [hf] at h
    obtain ⟨hdata, -, hholds⟩ := get_spec h (UInt16.ofNat count)
    have hq : q = (rtRingbufferGet fifo (UInt16.ofNat count)).2 ++ q.drop (UInt16.ofNat count).toNat := by
      rw [hdata, List.take_append_drop]
    simp only at hr
    split at hr
    · next hpos =>
      cases hr
      refine ⟨⟨_, rfl⟩, ⟨_, hq, hholds⟩, fun ho => ?_⟩
      rw [Outcome.returned.injEq] at ho
      omega
    · split at hr
      · cases hr
        exact ⟨⟨_, rfl⟩, ⟨_, hq, hholds⟩, fun ho => (by cases ho)⟩
      · cases hr
        exact ⟨⟨_, rfl⟩, ⟨_, hq, hholds⟩, fun ho => (by cases ho)⟩

theorem writePass_spec {pipe pipe' : RtPipe} {nonblock : Bool} {buf q : List UInt8} {ret ret' : ℕ} {o : Outcome}
    (h : Pending pipe q) (hw : writePass pipe nonblock buf ret = some (pipe', ret', o)) :
    (∃ fifo, pipe' = { pipe with fifo := fifo }) ∧ Pending pipe' (q ++ (buf.drop ret).take (ret' - ret)) := by
  unfold writePass at hw
  by_cases hr : pipe.readers = 0
  · rw [if_pos hr] at hw
    cases hw
    refine ⟨⟨pipe.fifo, rfl⟩, ?_⟩
    rw [Nat.sub_self, List.take_zero, List.append_nil]
    exact h
  · rw [if_neg hr] at hw
    obtain ⟨fifo, hf, hw⟩ := Option.map_eq_some_iff.mp hw
    unfold Pending at h
    rw [hf] at h
    have hput := put_spec h (fun i => buf.getD (ret + i) 0) (UInt16.ofNat (buf.length - ret))
    generalize rtRingbufferPut fifo (fun i => buf.getD (ret + i) 0) (UInt16.ofNat (buf.length - ret)) = put at hw hput
    obtain ⟨hn, -, hholds⟩ := hput
    rw [← hn] at hholds
    have hle : put.2 ≤ buf.length - ret := by
      have hmod := Nat.mod_le (buf.length - ret) (2 ^ 16)
      rw [hn, UInt16.toNat_ofNat']
      omega
    have hpending : Pending { pipe with fifo := some put.1 } (q ++ (buf.drop ret).take (ret + put.2 - ret)) := by
      rw [Nat.add_sub_cancel_left]
      by_cases hlen : ret ≤ buf.length
      · rw [← slice_getD buf (by omega)]
        exact hholds
      · rw [show put.2 = 0 by omega] at hholds ⊢
        exact hholds
    simp only at hw
    split at hw
    · cases hw
      exact ⟨⟨_, rfl⟩, hpending⟩
    · split at hw
      · cases hw
        exact ⟨⟨_, rfl⟩, hpending⟩
      · cases hw
        exact ⟨⟨_, rfl⟩, hpending⟩

/-! ### The invariant -/

/-- The counters are those of the open descriptors, and what was written is what was received and
what the ring buffer holds; nothing is written before the reader opens the pipe. -/
structure Inv (bufsz : ℕ) (s : Sys T) : Prop where
  bufsz_eq : s.pipe.bufsz = bufsz
  opened_iff : ∀ t, t ∈ s.opened ↔ s.writer t ≠ .closed
  bound : s.opened.card + s.reader.descriptors < 2 ^ 8
  writers_eq : s.pipe.writers = s.opened.card
  readers_eq : s.pipe.readers = s.reader.descriptors
  refCount_eq : s.pipe.refCount = s.opened.card + s.reader.descriptors
  closed_eq : s.opened = ∅ → s.beforeClose = s.written
  unopened_eq : s.reader = .unopened → s.written = []
  pending : s.reader ≠ .closed → ∃ q, Pending s.pipe q ∧ s.written = s.received ++ q
  delivered : Delivered s

theorem inv_created (isNamed : Bool) (bufsz : ℕ) : Inv bufsz (created isNamed bufsz : Sys T) where
  bufsz_eq := rfl
  opened_iff t := iff_of_false (Finset.notMem_empty t) (not_not.mpr rfl)
  bound := Nat.two_pow_pos 8
  writers_eq := rfl
  readers_eq := rfl
  refCount_eq := rfl
  closed_eq _ := rfl
  unopened_eq _ := rfl
  pending _ := ⟨[], rfl, rfl⟩
  delivered e he := (by cases he)

variable {k bufsz : ℕ} {s s' : Sys T} {t : T}

theorem Inv.unopened (h : Inv bufsz s) (href : s.pipe.refCount = 0) (hr : s.reader ≠ .closed) : s.reader = .unopened := by
  have hcount := h.refCount_eq
  cases hs : s.reader with
  | unopened => rfl
  | closed => exact absurd hs hr
  | idle _ => simp [hs, Reader.descriptors, href] at hcount
  | reading _ _ => simp [hs, Reader.descriptors, href] at hcount

theorem Inv.pending_open (h : Inv bufsz s) (hpos : 2 ^ k ≤ bufsz) (hlt : bufsz < 2 ^ 15)
    (pool : Option (ℕ → UInt8)) (mode : AccMode) (hr : s.reader ≠ .closed) :
    ∃ q, Pending (pipeFopsOpen k pool mode s.pipe) q ∧ s.written = s.received ++ q := by
  obtain ⟨q, hq, hw⟩ := h.pending hr
  by_cases href : s.pipe.refCount = 0
  · have hnil := h.unopened_eq (h.unopened href hr)
    rw [hnil] at hw
    obtain ⟨hrecv, rfl⟩ := List.append_eq_nil_iff.mp hw.symm
    refine ⟨[], ?_, by rw [hnil, hrecv, List.append_nil]⟩
    unfold Pending pipeFopsOpen
    simp only [if_pos href]
    cases pool with
    | none => trivial
    | some pool =>
      rw [h.bufsz_eq]
      exact holds_init pool hpos hlt
  · refine ⟨q, hq.of_fifo ?_, hw⟩
    simp only [pipeFopsOpen, if_neg href]

theorem Inv.pending_close (h : Inv bufsz s) {mode : AccMode} {pipe : RtPipe} (hc : pipeFopsClose mode s.pipe = some pipe)
    (href : s.pipe.refCount = 1 → s.reader = .unopened) (hr : s.reader ≠ .closed) :
    ∃ q, Pending pipe q ∧ s.written = s.received ++ q := by
  obtain ⟨q, hq, hw⟩ := h.pending hr
  rcases (pipeFopsClose_spec hc).2.2.2.2 with ⟨hone, hfifo⟩ | ⟨-, hfifo⟩
  · refine ⟨q, ?_, hw⟩
    rw [h.unopened_eq (href hone)] at hw
    unfold Pending
    rw [hfifo]
    exact (List.append_eq_nil_iff.mp hw.symm).2
  · exact ⟨q, hq.of_fifo hfifo, hw⟩

/-- A read that ends at a pipe whose bytes are all delivered, or does not return 0, keeps the property. -/
theorem delivered_readEnds (h : Delivered s) {nonblock : Bool} {count : ℕ} {o : Outcome}
    (ho : o = .returned 0 → s.eof = none → s.received = s.beforeClose) : Delivered (s.readEnds nonblock count o) := by
  cases o with
  | waits => exact h
  | returned ret =>
    unfold Delivered Sys.readEnds
    simp only
    by_cases hret : ret = 0
    · rw [if_pos hret]
      subst hret
      cases he : s.eof with
      | none =>
        intro e hmem
        cases hmem
        exact ho rfl he
      | some e => exact fun e' he' => h e' (he.trans he')
    · rw [if_neg hret]
      exact h

theorem Inv.readEnds (h : Inv bufsz s) (hr : s.reader.descriptors = 1) {nonblock : Bool} {count : ℕ} {o : Outcome}
    (ho : o = .returned 0 → s.eof = none → s.received = s.beforeClose) : Inv bufsz (s.readEnds nonblock count o) := by
  have hdelivered := @delivered_readEnds T s h.delivered nonblock count o ho
  have hbound := h.bound
  have hreaders := h.readers_eq
  have hcount := h.refCount_eq
  have hpending := h.pending fun hs => by rw [hs] at hr; cases hr
  rw [hr] at hbound hreaders hcount
  cases o with
  | waits =>
    exact ⟨h.bufsz_eq, h.opened_iff, hbound, h.writers_eq, hreaders, hcount, h.closed_eq, fun hs => (by cases hs),
      fun _ => hpending, hdelivered⟩
  | returned ret =>
    exact ⟨h.bufsz_eq, h.opened_iff, hbound, h.writers_eq, hreaders, hcount, h.closed_eq, fun hs => (by cases hs),
      fun _ => hpending, hdelivered⟩

theorem Inv.received_eq (h : Inv bufsz s) (hr : s.reader.descriptors = 1) (hw : s.pipe.writers = 0)
    (hempty : ∀ fifo ∈ s.pipe.fifo, rtRingbufferDataLen fifo = 0) : s.received = s.beforeClose := by
  obtain ⟨q, hq, hwritten⟩ := h.pending fun hs => by rw [hs] at hr; cases hr
  rw [hq.eq_nil hempty, List.append_nil] at hwritten
  rw [h.closed_eq (Finset.card_eq_zero.mp (h.writers_eq.symm.trans hw)), hwritten]

theorem inv_readPass (h : Inv bufsz s) {nonblock : Bool} {count : ℕ} (hr : s.reader = .reading nonblock count)
    {pipe : RtPipe} {data : List UInt8} {o : Outcome} (hp : readPass s.pipe nonblock count = some (pipe, data, o))
    (hC : s.eof = none → s.pipe.writers = 0 → ∀ fifo ∈ s.pipe.fifo, rtRingbufferDataLen fifo = 0) :
    Inv bufsz ({ s with pipe := pipe, received := s.received ++ data }.readEnds nonblock count o) := by
  have hone : s.reader.descriptors = 1 := by rw [hr]; rfl
  obtain ⟨q, hq, hw⟩ := h.pending fun hs => by rw [hs] at hone; cases hone
  obtain ⟨⟨fifo, rfl⟩, ⟨q', rfl, hq'⟩, hzero⟩ := readPass_spec hq hp
  have hpending : ∃ q, Pending { s.pipe with fifo := fifo } q ∧ s.written = s.received ++ data ++ q :=
    ⟨q', hq', by rw [hw, List.append_assoc]⟩
  have hinv : Inv bufsz { s with pipe := { s.pipe with fifo := fifo }, received := s.received ++ data } :=
    ⟨h.bufsz_eq, h.opened_iff, h.bound, h.writers_eq, h.readers_eq, h.refCount_eq, h.closed_eq, h.unopened_eq,
      fun _ => hpending, h.delivered⟩
  refine hinv.readEnds hone fun ho heof => ?_
  obtain ⟨hwriters, rfl⟩ := hzero ho
  simp only [List.append_nil]
  exact h.received_eq hone hwriters (hC heof hwriters)

theorem Inv.written_writePass (h : Inv bufsz s) {nonblock : Bool} {buf : List UInt8} {ret ret' : ℕ} {pipe : RtPipe}
    {o : Outcome} (hp : writePass s.pipe nonblock buf ret = some (pipe, ret', o)) :
    (∃ fifo, pipe = { s.pipe with fifo := fifo }) ∧
      (s.reader = .unopened → s.written ++ (buf.drop ret).take (ret' - ret) = []) ∧
      (s.reader ≠ .closed →
        ∃ q, Pending pipe q ∧ s.written ++ (buf.drop ret).take (ret' - ret) = s.received ++ q) := by
  have hreaders := h.readers_eq
  by_cases hzero : s.pipe.readers = 0
  · rw [writePass, if_pos hzero] at hp
    cases hp
    rw [Nat.sub_self, List.take_zero, List.append_nil]
    exact ⟨⟨s.pipe.fifo, rfl⟩, h.unopened_eq, h.pending⟩
  · have hopen : s.reader ≠ .unopened ∧ s.reader ≠ .closed := by
      constructor <;> intro hs <;> rw [hs] at hreaders <;> exact hzero hreaders
    obtain ⟨q, hq, hw⟩ := h.pending hopen.2
    obtain ⟨hfifo, hq'⟩ := writePass_spec hq hp
    refine ⟨hfifo, fun hs => absurd hs hopen.1, fun _ => ⟨_, hq', ?_⟩⟩
    rw [hw, List.append_assoc]

theorem inv_openReader (h : Inv bufsz s) (hpos : 2 ^ k ≤ bufsz) (hlt : bufsz < 2 ^ 15) (hr : s.reader = .unopened)
    (hcard : s.opened.card + s.reader.descriptors < 255) (nonblock : Bool) (pool : Option (ℕ → UInt8)) :
    Inv bufsz { s with pipe := pipeFopsOpen k pool .rdonly s.pipe, reader := .idle nonblock } := by
  obtain ⟨hsz, hreaders, hwriters, hcount⟩ := pipeFopsOpen_spec k pool .rdonly s.pipe
  have hzero : s.reader.descriptors = 0 := by rw [hr]; rfl
  have href := h.refCount_eq
  rw [h.readers_eq, hzero] at hreaders
  rw [inc_of_lt (by omega)] at hcount
  have hpending := h.pending_open hpos hlt pool .rdonly fun hs => by rw [hr] at hs; cases hs
  have hbound : s.opened.card + 1 < 2 ^ 8 := by omega
  exact ⟨hsz.trans h.bufsz_eq, h.opened_iff, hbound, hwriters.trans h.writers_eq, hreaders,
    hcount.trans (by rw [href, hzero]; rfl), h.closed_eq, fun hs => (by cases hs), fun _ => hpending, h.delivered⟩

theorem inv_closeReader (h : Inv bufsz s) {nonblock : Bool} (hr : s.reader = .idle nonblock) {pipe : RtPipe}
    (hc : pipeFopsClose .rdonly s.pipe = some pipe) :
    Inv bufsz { s with pipe := pipe, deleted := isDeleted pipe, reader := .closed } := by
  obtain ⟨hsz, hreaders, hwriters, hcount, -⟩ := pipeFopsClose_spec hc
  have hone : s.reader.descriptors = 1 := by rw [hr]; rfl
  have href := h.refCount_eq
  have hbound := h.bound
  rw [h.readers_eq, hone] at hreaders
  rw [dec_of_pos (by omega), href, hone, Nat.add_sub_cancel] at hcount
  have hclosed : s.opened.card + 0 < 2 ^ 8 := by omega
  exact ⟨hsz.trans h.bufsz_eq, h.opened_iff, hclosed, hwriters.trans h.writers_eq, hreaders, hcount, h.closed_eq,
    fun hs => (by cases hs), fun hs => absurd rfl hs, h.delivered⟩

variable [DecidableEq T]

theorem opened_iff_update (h : ∀ t, t ∈ s.opened ↔ s.writer t ≠ .closed) (ht : t ∈ s.opened) {w : Writer}
    (hw : w ≠ .closed) (u : T) : u ∈ s.opened ↔ Function.update s.writer t w u ≠ .closed := by
  by_cases hu : u = t
  · rw [hu, Function.update_self]
    exact iff_of_true ht hw
  · rw [Function.update_of_ne hu]
    exact h u

theorem inv_writePass (h : Inv bufsz s) {nonblock : Bool} {buf : List UInt8} {ret ret' : ℕ}
    (ht : s.writer t = .writing nonblock buf ret) {pipe : RtPipe} {o : Outcome}
    (hp : writePass s.pipe nonblock buf ret = some (pipe, ret', o)) :
    Inv bufsz ({ s with pipe := pipe, written := s.written ++ (buf.drop ret).take (ret' - ret) }.writeEnds
      t nonblock buf ret' o) := by
  have hmem : t ∈ s.opened := (h.opened_iff t).mpr (by rw [ht]; intro he; cases he)
  have hne : s.opened ≠ ∅ := Finset.ne_empty_of_mem hmem
  obtain ⟨⟨fifo, rfl⟩, hunopened, hpending⟩ := h.written_writePass hp
  have hopened : ∀ w : Writer, w ≠ .closed → ∀ u, u ∈ s.opened ↔ Function.update s.writer t w u ≠ .closed :=
    fun w hw => opened_iff_update h.opened_iff hmem hw
  cases o with
  | waits =>
    exact ⟨h.bufsz_eq, hopened _ fun he => (by cases he), h.bound, h.writers_eq, h.readers_eq, h.refCount_eq,
      fun he => absurd he hne, hunopened, hpending, h.delivered⟩
  | returned ret =>
    exact ⟨h.bufsz_eq, hopened _ fun he => (by cases he), h.bound, h.writers_eq, h.readers_eq, h.refCount_eq,
      fun he => absurd he hne, hunopened, hpending, h.delivered⟩

theorem inv_write (h : Inv bufsz s) {nonblock : Bool} (ht : s.writer t = .idle nonblock) (w : Writer) (hw : w ≠ .closed) :
    Inv bufsz { s with writer := Function.update s.writer t w } := by
  have hmem : t ∈ s.opened := (h.opened_iff t).mpr (by rw [ht]; intro he; cases he)
  exact ⟨h.bufsz_eq, opened_iff_update h.opened_iff hmem hw, h.bound, h.writers_eq, h.readers_eq, h.refCount_eq,
    h.closed_eq, h.unopened_eq, h.pending, h.delivered⟩

theorem inv_openWriter (h : Inv bufsz s) (hpos : 2 ^ k ≤ bufsz) (hlt : bufsz < 2 ^ 15) (ht : s.writer t = .closed)
    (hcard : s.opened.card + s.reader.descriptors < 255) (nonblock : Bool) (pool : Option (ℕ → UInt8)) :
    Inv bufsz { s with
      pipe := pipeFopsOpen k pool .wronly s.pipe
      writer := Function.update s.writer t (.idle nonblock)
      opened := insert t s.opened } := by
  obtain ⟨hsz, hreaders, hwriters, hcount⟩ := pipeFopsOpen_spec k pool .wronly s.pipe
  have hmem : t ∉ s.opened := fun hmem => (h.opened_iff t).mp hmem ht
  have hinsert := Finset.card_insert_of_notMem hmem
  have href := h.refCount_eq
  have hw := h.writers_eq
  rw [AccMode.writes, if_pos rfl, inc_of_lt (by omega)] at hwriters
  rw [inc_of_lt (by omega)] at hcount
  refine ⟨hsz.trans h.bufsz_eq, fun u => ?_, ?_, ?_, hreaders.trans h.readers_eq, ?_,
    fun he => absurd he (Finset.insert_ne_empty t _), h.unopened_eq, h.pending_open hpos hlt pool .wronly, h.delivered⟩
  · simp only
    by_cases hu : u = t
    · rw [hu, Function.update_self]
      exact iff_of_true (Finset.mem_insert_self t _) fun he => (by cases he)
    · rw [Function.update_of_ne hu, Finset.mem_insert, or_iff_right hu]
      exact h.opened_iff u
  · simp only
    omega
  · simp only
    omega
  · simp only
    omega

theorem inv_closeWriter (h : Inv bufsz s) {nonblock : Bool} (ht : s.writer t = .idle nonblock) {pipe : RtPipe}
    (hc : pipeFopsClose .wronly s.pipe = some pipe) : Inv bufsz (s.writerCloses t pipe) := by
  obtain ⟨hsz, hreaders, hwriters, hcount, -⟩ := pipeFopsClose_spec hc
  have hmem : t ∈ s.opened := (h.opened_iff t).mpr (by rw [ht]; intro he; cases he)
  have hpos : 0 < s.opened.card := Finset.card_pos.mpr ⟨t, hmem⟩
  have herase := Finset.card_erase_of_mem hmem
  have hbound := h.bound
  have href := h.refCount_eq
  have hw := h.writers_eq
  rw [AccMode.writes, if_pos rfl, dec_of_pos (by omega)] at hwriters
  rw [dec_of_pos (by omega)] at hcount
  refine ⟨hsz.trans h.bufsz_eq, fun u => ?_, ?_, ?_, hreaders.trans h.readers_eq, ?_, fun he => if_pos he,
    h.unopened_eq, fun hr => ?_, h.delivered⟩
  · simp only [Sys.writerCloses]
    by_cases hu : u = t
    · rw [hu, Function.update_self]
      exact iff_of_false (Finset.notMem_erase t _) (not_not.mpr rfl)
    · rw [Function.update_of_ne hu, Finset.mem_erase, and_iff_right hu]
      exact h.opened_iff u
  · simp only [Sys.writerCloses]
    omega
  · simp only [Sys.writerCloses]
    omega
  · simp only [Sys.writerCloses]
    omega
  · refine h.pending_close hc (fun hone => ?_) hr
    -- the writer holds the only descriptor
    cases hs : s.reader with
    | unopened => rfl
    | closed => exact absurd hs hr
    | idle _ =>
      rw [hs, Reader.descriptors] at href
      omega
    | reading _ _ =>
      rw [hs, Reader.descriptors] at href
      omega

theorem step_inv (hpos : 2 ^ k ≤ bufsz) (hlt : bufsz < 2 ^ 15) {a : Act T} (h : Inv bufsz s) (hC : DrainedAtEnd s a)
    (hstep : step k s a = some s') : Inv bufsz s' := by
  cases a with
  | openReader nonblock pool =>
    simp only [step] at hstep
    split at hstep
    · next hg =>
      cases hstep
      exact inv_openReader h hpos hlt hg.2 hC nonblock pool
    · cases hstep
  | closeReader =>
    simp only [step] at hstep
    cases hr : s.reader with
    | idle nonblock =>
      rw [hr] at hstep
      obtain ⟨pipe, hc, rfl⟩ := Option.map_eq_some_iff.mp hstep
      exact inv_closeReader h hr hc
    | _ => simp [hr] at hstep
  | openWriter t nonblock pool =>
    simp only [step] at hstep
    split at hstep
    · next hg =>
      cases hstep
      exact inv_openWriter h hpos hlt hg.2 hC nonblock pool
    · cases hstep
  | closeWriter t =>
    simp only [step] at hstep
    cases ht : s.writer t with
    | idle nonblock =>
      rw [ht] at hstep
      obtain ⟨pipe, hc, rfl⟩ := Option.map_eq_some_iff.mp hstep
      exact inv_closeWriter h ht hc
    | _ => simp [ht] at hstep
  | read count =>
    simp only [step] at hstep
    cases hr : s.reader with
    | idle nonblock =>
      have hone : s.reader.descriptors = 1 := by rw [hr]; rfl
      simp only [hr] at hstep
      split at hstep
      · next hw =>
        cases hstep
        exact h.readEnds hone fun _ heof => h.received_eq hone hw (hC heof hw)
      · cases hstep
        exact @Inv.readEnds T bufsz s h hone nonblock count .waits fun ho => (by cases ho)
    | _ => simp [hr] at hstep
  | readPass =>
    simp only [step] at hstep
    cases hr : s.reader with
    | reading nonblock count =>
      rw [hr] at hstep
      obtain ⟨⟨pipe, data, o⟩, hp, rfl⟩ := Option.map_eq_some_iff.mp hstep
      exact inv_readPass h hr hp hC
    | _ => simp [hr] at hstep
  | write t buf =>
    simp only [step] at hstep
    cases ht : s.writer t with
    | idle nonblock =>
      simp only [ht] at hstep
      split at hstep
      · cases hstep
        exact h
      · split at hstep
        · cases hstep
          exact h
        · cases hstep
          exact inv_write h ht _ fun he => (by cases he)
    | _ => simp [ht] at hstep
  | writePass t =>
    simp only [step] at hstep
    cases ht : s.writer t with
    | writing nonblock buf ret =>
      rw [ht] at hstep
      obtain ⟨⟨pipe, ret', o⟩, hp, rfl⟩ := Option.map_eq_some_iff.mp hstep
      exact inv_writePass h ht hp
    | _ => simp [ht] at hstep

/-- Along every run in which the ring buffer is empty when a read first returns 0, and no more than
255 descriptors are open, the reader has then received everything that was written. -/
theorem pipe_delivers_when_drained (hpos : 2 ^ k ≤ bufsz) (hlt : bufsz < 2 ^ 15) (isNamed : Bool) (acts : List (Act T))
    (hC : AllSteps (step k) DrainedAtEnd (created isNamed bufsz : Sys T) acts)
    (hrun : exec (step k) (created isNamed bufsz) acts = some s') : Delivered s' :=
  (exec_inv_of_allSteps (Inv bufsz) DrainedAtEnd (fun _ _ _ h hC hstep => step_inv hpos hlt h hC hstep)
    (inv_created isNamed bufsz) hC hrun).delivered


instance (s : Sys T) : (a : Act T) → Decidable (DrainedAtEnd s a)
  | .openReader _ _ => inferInstanceAs (Decidable (_ < _))
  | .openWriter _ _ _ => inferInstanceAs (Decidable (_ < _))
  | .read _ => inferInstanceAs (Decidable (_ → _ → _))
  | .readPass => inferInstanceAs (Decidable (_ → _ → _))
  | .closeReader => isTrue trivial
  | .closeWriter _ => isTrue trivial
  | .write _ _ => isTrue trivial
  | .writePass _ => isTrue trivial

/-- Two writers, the second of which closes after the reader has caught up. -/
def drainedRun : List (Act ℕ) :=
  [.openReader false (some fun _ => 0), .openWriter 0 false none, .openWriter 1 true none, .write 0 [7, 8], .writePass 0,
    .closeWriter 0, .read 1, .readPass, .write 1 [9], .writePass 1, .read 4, .readPass, .closeWriter 1, .read 4]

theorem pipe_delivers_when_drained_run :
    ((exec (step 2) (created false 4) drainedRun).map fun s => s.eof) = some (some ([7, 8, 9], [7, 8, 9])) ∧
      ∀ s', exec (step 2) (created false 4) drainedRun = some s' → Delivered s' := by
  refine ⟨by decide, fun s' hrun => ?_⟩
  exact pipe_delivers_when_drained (by decide) (by decide) false drainedRun (by decide) hrun

/-- A writer stores a byte and closes: the first read returns 0 and the byte is lost. -/
theorem pipe_byte_lost :
    ((exec (step 2) (created false 512 : Sys ℕ)
        [.openReader false (some fun _ => 0), .openWriter 0 false none, .write 0 [7], .writePass 0, .closeWriter 0,
          .read 1]).map fun s => s.eof) = some (some ([], [7])) ∧
      ¬∀ s', exec (step 2) (created false 512 : Sys ℕ)
        [.openReader false (some fun _ => 0), .openWriter 0 false none, .write 0 [7], .writePass 0, .closeWriter 0,
          .read 1] = some s' → Delivered s' := by
  refine ⟨by decide, fun hall => ?_⟩
  exact absurd (hall _ rfl ([], [7]) rfl) (by decide)

end RtThread.Drivers.Pipe
