import RtThread.Drivers.Pipe
import RtThread.Drivers.WaitQueue

/-!
# One blocking reader and one blocking writer (`pipe.c:132-249`, `waitqueue.c:41-130`)

The two calls are cut at the lock and at the sections of the wait queues, so that each step is one of
`rt_mutex_take`, a pass over the ring buffer, `rt_mutex_release`, `rt_wqueue_wakeup` and the sections of
`rt_wqueue_wait`. The pipe stays open on both sides.
-/

namespace RtThread.Drivers.PipeWait

open RtThread.Drivers.RingBuffer RtThread.Drivers.Pipe RtThread.Drivers.WaitQueue RtThread.Lib.Transition

inductive Party where
  | reader
  | writer
  deriving DecidableEq, Repr

/-- What a thread does next: `passing` has the lock, `releasing` gives it up before a wait, and `waking`
to `leaving` are that wait. A call ends with `wakeAndReturn` and `releaseAndReturn`, in one order in the
reader and in the other in the writer. -/
inductive Stage where
  | idle
  | locking
  | passing
  | releasing
  | waking
  | entering
  | suspended
  | ready
  | leaving
  | wakeAndReturn
  | releaseAndReturn
  deriving DecidableEq, Repr

/-- `count` and `buf`, `ret`, `wakeup` are the variables of the two calls. -/
structure Sys where
  pipe : RtPipe
  lock : Option Party
  readerQueue : RtWqueue Party
  writerQueue : RtWqueue Party
  readerAt : Stage
  writerAt : Stage
  count : ℕ
  buf : List UInt8
  ret : ℕ
  wakeup : Bool
  written : List UInt8
  received : List UInt8

inductive Act where
  | read (count : ℕ)
  | write (buf : List UInt8)
  | reader
  | writer

/-- An empty pipe opened by both sides; the flags of the queues may be left from earlier calls. -/
def opened (k bufsz : ℕ) (isNamed : Bool) (pool : ℕ → UInt8) (readerFlag writerFlag : Bool) : Sys where
  pipe := pipeFopsOpen k none .wronly (pipeFopsOpen k (some pool) .rdonly ⟨isNamed, none, bufsz, 0, 0, 0⟩)
  lock := none
  readerQueue := ⟨readerFlag, []⟩
  writerQueue := ⟨writerFlag, []⟩
  readerAt := .idle
  writerAt := .idle
  count := 0
  buf := []
  ret := 0
  wakeup := false
  written := []
  received := []

def Stage.resume : Stage → Stage
  | .suspended => .ready
  | stage => stage

/-- `rt_wqueue_wakeup(&pipe->writer_queue)`. -/
def Sys.wakeWriter (s : Sys) : Sys :=
  let r := rtWqueueWakeup s.writerQueue
  { s with writerQueue := r.1, writerAt := if r.2 = some .writer then s.writerAt.resume else s.writerAt }

def Sys.wakeReader (s : Sys) : Sys :=
  let r := rtWqueueWakeup s.readerQueue
  { s with readerQueue := r.1, readerAt := if r.2 = some .reader then s.readerAt.resume else s.readerAt }

/-- Where a pass of the reader leads: with the last writer gone the call returns without a wake-up. -/
def readerAfter : Outcome → Stage
  | .returned ret => if ret = 0 then .releaseAndReturn else .wakeAndReturn
  | .waits => .releasing

def writerAfter : Outcome → Stage
  | .returned _ => .releaseAndReturn
  | .waits => .releasing

def pipeFopsRead (s : Sys) : Option Sys :=
  match s.readerAt with
  | .idle => none
  | .locking => if s.lock = none then some { s with lock := some .reader, readerAt := .passing } else none
  | .passing =>
    (readPass s.pipe false s.count).map fun r =>
      { s with pipe := r.1, received := s.received ++ r.2.1, readerAt := readerAfter r.2.2 }
  | .releasing => some { s with lock := none, readerAt := .waking }
  | .waking => some { s.wakeWriter with readerAt := .entering }
  | .entering =>
    let r := rtWqueueWait s.readerQueue .reader
    some { s with readerQueue := r.1, readerAt := if r.2 = true then .suspended else .leaving }
  | .suspended => none
  | .ready => some { s with readerQueue := exitWakeup s.readerQueue, readerAt := .leaving }
  | .leaving => some { s with readerQueue := rtWqueueRemove s.readerQueue .reader, readerAt := .locking }
  | .wakeAndReturn => some { s.wakeWriter with readerAt := .releaseAndReturn }
  | .releaseAndReturn => some { s with lock := none, readerAt := .idle }

def pipeFopsWrite (s : Sys) : Option Sys :=
  match s.writerAt with
  | .idle => none
  | .locking => if s.lock = none then some { s with lock := some .writer, writerAt := .passing } else none
  | .passing =>
    (writePass s.pipe false s.buf s.ret).map fun r =>
      { s with
        pipe := r.1
        ret := r.2.1
        wakeup := s.wakeup || decide (s.pipe.readers ≠ 0)
        written := s.written ++ (s.buf.drop s.ret).take (r.2.1 - s.ret)
        writerAt := writerAfter r.2.2 }
  | .releasing => some { s with lock := none, writerAt := .waking }
  | .waking => some { s.wakeReader with writerAt := .entering }
  | .entering =>
    let r := rtWqueueWait s.writerQueue .writer
    some { s with writerQueue := r.1, writerAt := if r.2 = true then .suspended else .leaving }
  | .suspended => none
  | .ready => some { s with writerQueue := exitWakeup s.writerQueue, writerAt := .leaving }
  | .leaving => some { s with writerQueue := rtWqueueRemove s.writerQueue .writer, writerAt := .locking }
  | .releaseAndReturn =>
    some { s with lock := none, writerAt := if s.wakeup = true then .wakeAndReturn else .idle }
  | .wakeAndReturn => some { s.wakeReader with writerAt := .idle }

def step (s : Sys) : Act → Option Sys
  | .read count =>
    if s.readerAt = .idle then
      if s.pipe.writers = 0 then some s else some { s with count := count, readerAt := .locking }
    else none
  | .write buf =>
    if s.writerAt = .idle then
      if s.pipe.readers = 0 then some s
      else if buf.length = 0 then some s
      else some { s with buf := buf, ret := 0, wakeup := false, writerAt := .locking }
    else none
  | .reader => pipeFopsRead s
  | .writer => pipeFopsWrite s

/-! ### What a run promises -/

def Sys.Empty (s : Sys) : Prop := ∀ fifo ∈ s.pipe.fifo, rtRingbufferDataLen fifo = 0

def Sys.Full (s : Sys) : Prop := ∀ fifo ∈ s.pipe.fifo, rtRingbufferSpaceLen fifo = 0

/-- The next wake-up of the stage's code comes before its next wait or return. -/
def Stage.wakes : Stage → Bool
  | .releasing | .waking | .wakeAndReturn => true
  | _ => false

def Sys.ReaderWakes (s : Sys) : Prop := s.readerAt.wakes = true

def Sys.WriterWakes (s : Sys) : Prop :=
  s.writerAt.wakes = true ∨ s.writerAt = .releaseAndReturn ∧ s.wakeup = true

structure NoDeadlock (s : Sys) : Prop where
  reader : s.readerAt = .suspended → s.Empty ∨ s.WriterWakes
  writer : s.writerAt = .suspended → s.Full ∨ s.ReaderWakes
  notBoth : ¬(s.readerAt = .suspended ∧ s.writerAt = .suspended)
  order : s.received <+: s.written

/-- At least one byte, and no more than `rt_ringbuffer_put` can be asked for in one call. -/
def Counts : Act → Prop
  | .read count => 1 ≤ count
  | .write buf => 1 ≤ buf.length ∧ buf.length ≤ 65535
  | _ => True

/-- `rt_ringbuffer_get` takes its length as `rt_uint16_t`. -/
def ReadsSome : Act → Prop
  | .read count => count % 65536 ≠ 0
  | _ => True

/-! ### One side of the protocol -/

def Stage.waits : Stage → Bool
  | .releasing | .waking | .entering | .suspended => true
  | _ => false

/-- The thread `party` is in its queue while it is suspended, and when its pass has failed `reason`
holds or the flag of the queue is set. -/
structure Waits (party : Party) (stage : Stage) (q : RtWqueue Party) (reason : Prop) : Prop where
  list_eq : q.waitingList = if stage = .suspended then [party] else []
  flag_eq : stage = .suspended → q.flag = false
  excused : stage.waits = true → reason ∨ q.flag = true

variable {party : Party} {stage : Stage} {q : RtWqueue Party} {reason reason' : Prop}

theorem Waits.mono (h : Waits party stage q reason) (himp : reason → reason') : Waits party stage q reason' :=
  ⟨h.list_eq, h.flag_eq, fun hw => (h.excused hw).imp_left himp⟩

theorem Waits.reason_of_suspended (h : Waits party .suspended q reason) : reason := by
  refine (h.excused rfl).resolve_right fun hflag => ?_
  exact absurd (hflag.symm.trans (h.flag_eq rfl)) Bool.noConfusion

theorem Waits.move (h : Waits party stage q reason) {stage' : Stage} (hs : stage ≠ .suspended) (hs' : stage' ≠ .suspended)
    (hwaits : stage'.waits = true → stage.waits = true) : Waits party stage' q reason := by
  have hlist := h.list_eq
  rw [if_neg hs] at hlist
  exact ⟨by rw [if_neg hs', hlist], fun he => absurd he hs', fun hw => h.excused (hwaits hw)⟩

theorem Waits.fail (h : Waits party stage q reason) (hs : stage ≠ .suspended) (hreason : reason') :
    Waits party .releasing q reason' := by
  have hlist := h.list_eq
  rw [if_neg hs] at hlist
  exact ⟨by rw [if_neg (by decide), hlist], fun he => (by cases he), fun _ => .inl hreason⟩

theorem Waits.leave (h : Waits party stage q reason) {stage' : Stage} (hs : stage ≠ .suspended)
    (hs' : stage' ≠ .suspended) (hwaits : stage'.waits = false) : Waits party stage' q reason' := by
  have hlist := h.list_eq
  rw [if_neg hs] at hlist
  exact ⟨by rw [if_neg hs', hlist], fun he => absurd he hs', fun hw => absurd (hw.symm.trans hwaits) Bool.noConfusion⟩

theorem Waits.enter (h : Waits party .entering q reason) :
    Waits party (if (rtWqueueWait q party).2 = true then .suspended else .leaving) (rtWqueueWait q party).1 reason := by
  have hlist := h.list_eq
  rw [if_neg (by decide)] at hlist
  by_cases hflag : q.flag = true
  · rw [rtWqueueWait, if_pos hflag, if_neg Bool.false_ne_true]
    exact ⟨hlist, fun he => (by cases he), fun he => (by cases he)⟩
  · rw [rtWqueueWait, if_neg hflag, if_pos rfl]
    have hreason : reason := (h.excused rfl).resolve_right hflag
    exact ⟨by rw [hlist]; rfl, fun _ => Bool.eq_false_iff.mpr hflag, fun _ => .inl hreason⟩

theorem Waits.exit (h : Waits party .ready q reason) : Waits party .leaving (exitWakeup q) reason :=
  ⟨h.list_eq, fun he => (by cases he), fun he => (by cases he)⟩

theorem Waits.remove (h : Waits party .leaving q reason) : Waits party .locking (rtWqueueRemove q party) reason := by
  have hlist := h.list_eq
  rw [if_neg (by decide)] at hlist
  refine ⟨?_, fun he => (by cases he), fun he => (by cases he)⟩
  rw [rtWqueueRemove, hlist]
  rfl

theorem Waits.wakeup (h : Waits party stage q reason) (reason' : Prop) :
    Waits party (if (rtWqueueWakeup q).2 = some party then stage.resume else stage) (rtWqueueWakeup q).1 reason' := by
  have hlist := h.list_eq
  by_cases hs : stage = .suspended
  · rw [if_pos hs] at hlist
    simp only [rtWqueueWakeup, hlist, List.head?_cons, if_true, hs]
    exact ⟨rfl, fun he => (by cases he), fun he => (by cases he)⟩
  · rw [if_neg hs] at hlist
    simp only [rtWqueueWakeup, hlist, List.head?_nil, reduceCtorEq, if_false]
    exact ⟨by rw [if_neg hs]; rfl, fun he => absurd he hs, fun _ => .inr rfl⟩

/-! ### The passes -/

theorem readPass_blocking {pipe pipe' : RtPipe} {fifo : RtRingbuffer} {count : ℕ} {q data : List UInt8} {o : Outcome}
    (hf : pipe.fifo = some fifo) (h : Holds fifo q) (hw : pipe.writers ≠ 0) (hcount : count % 65536 ≠ 0)
    (hr : readPass pipe false count = some (pipe', data, o)) :
    ∃ fifo' q', pipe' = { pipe with fifo := some fifo' } ∧ Holds fifo' q' ∧ q = data ++ q' ∧
      (readerAfter o = .wakeAndReturn ∨ readerAfter o = .releasing ∧ q' = []) := by
  obtain ⟨hdata, -, hholds⟩ := get_spec h (UInt16.ofNat count)
  have hlen : (UInt16.ofNat count).toNat = count % 65536 := UInt16.toNat_ofNat'
  rw [readPass, if_neg hw, hf, Option.map_some, Option.some.injEq] at hr
  simp only [Bool.false_eq_true, if_false] at hr
  have hq : q = (rtRingbufferGet fifo (UInt16.ofNat count)).2 ++ q.drop (UInt16.ofNat count).toNat := by
    rw [hdata, List.take_append_drop]
  split at hr
  · next hpos =>
    cases hr
    refine ⟨_, _, rfl, hholds, hq, .inl (if_neg ?_)⟩
    omega
  · next hpos =>
    cases hr
    refine ⟨_, _, rfl, hholds, hq, .inr ⟨rfl, ?_⟩⟩
    rw [hdata, List.length_take, hlen] at hpos
    rw [List.eq_nil_of_length_eq_zero (show q.length = 0 by omega), List.drop_nil]

theorem writePass_blocking {pipe pipe' : RtPipe} {fifo : RtRingbuffer} {buf q : List UInt8} {ret ret' : ℕ} {o : Outcome}
    (hf : pipe.fifo = some fifo) (h : Holds fifo q) (hr : pipe.readers ≠ 0) (hret : ret ≤ buf.length)
    (hlt : buf.length < 65536) (hw : writePass pipe false buf ret = some (pipe', ret', o)) :
    ∃ fifo', pipe' = { pipe with fifo := some fifo' } ∧ Holds fifo' (q ++ (buf.drop ret).take (ret' - ret)) ∧
      ret' ≤ buf.length ∧
      (writerAfter o = .releaseAndReturn ∨ writerAfter o = .releasing ∧ rtRingbufferSpaceLen fifo' = 0) := by
  have hpending : Pending pipe q := by
    rw [Pending, hf]
    exact h
  obtain ⟨-, hpending'⟩ := writePass_spec hpending hw
  have hput := put_spec h (fun i => buf.getD (ret + i) 0) (UInt16.ofNat (buf.length - ret))
  have hlen : (UInt16.ofNat (buf.length - ret)).toNat = buf.length - ret := by
    rw [UInt16.toNat_ofNat']
    exact Nat.mod_eq_of_lt (by omega)
  rw [hlen] at hput
  rw [writePass, if_neg hr, hf, Option.map_some, Option.some.injEq] at hw
  simp only [Bool.false_eq_true, if_false] at hw
  obtain ⟨hn, hsize, hholds⟩ := hput
  split at hw
  · cases hw
    exact ⟨_, rfl, hpending', by omega, .inl rfl⟩
  · next hne =>
    cases hw
    refine ⟨_, rfl, hpending', by omega, .inr ⟨rfl, ?_⟩⟩
    rw [hholds.spaceLen, hsize, List.length_append, RtThread.Lib.Ring.length_slice]
    omega

/-! ### The invariant -/

structure Inv (s : Sys) : Prop where
  readers : s.pipe.readers ≠ 0
  writers : s.pipe.writers ≠ 0
  pending : ∃ fifo q, s.pipe.fifo = some fifo ∧ Holds fifo q ∧ s.written = s.received ++ q
  reader : Waits .reader s.readerAt s.readerQueue (s.Empty ∨ s.WriterWakes)
  writer : Waits .writer s.writerAt s.writerQueue (s.Full ∨ s.ReaderWakes)
  count : s.readerAt = .idle ∨ s.count % 65536 ≠ 0
  ret_le : s.ret ≤ s.buf.length
  buf_lt : s.buf.length < 65536
  wakeup : s.writerAt = .releaseAndReturn → s.wakeup = true

theorem inv_opened {k bufsz : ℕ} (hpos : 2 ^ k ≤ bufsz) (hlt : bufsz < 2 ^ 15) (isNamed : Bool) (pool : ℕ → UInt8)
    (readerFlag writerFlag : Bool) : Inv (opened k bufsz isNamed pool readerFlag writerFlag) where
  readers := Nat.one_ne_zero
  writers := Nat.one_ne_zero
  pending := ⟨_, [], rfl, holds_init pool hpos hlt, rfl⟩
  reader := ⟨rfl, fun he => (by cases he), fun he => (by cases he)⟩
  writer := ⟨rfl, fun he => (by cases he), fun he => (by cases he)⟩
  count := .inl rfl
  ret_le := le_rfl
  buf_lt := Nat.succ_pos _
  wakeup he := (by cases he)

variable {s s' : Sys}

theorem Inv.noDeadlock (h : Inv s) : NoDeadlock s := by
  have hreader : s.readerAt = .suspended → s.Empty ∨ s.WriterWakes := fun hs => by
    have hwaits := h.reader
    rw [hs] at hwaits
    exact hwaits.reason_of_suspended
  have hwriter : s.writerAt = .suspended → s.Full ∨ s.ReaderWakes := fun hs => by
    have hwaits := h.writer
    rw [hs] at hwaits
    exact hwaits.reason_of_suspended
  obtain ⟨fifo, q, hf, hholds, hwritten⟩ := h.pending
  refine ⟨hreader, hwriter, fun hboth => ?_, by rw [hwritten]; exact List.prefix_append _ _⟩
  obtain ⟨hr, hw⟩ := hboth
  have hempty : s.Empty := (hreader hr).resolve_right fun hwakes => by
    rw [Sys.WriterWakes, hw] at hwakes
    rcases hwakes with hwakes | ⟨hwakes, -⟩ <;> cases hwakes
  have hfull : s.Full := (hwriter hw).resolve_right fun hwakes => by
    rw [Sys.ReaderWakes, hr] at hwakes
    cases hwakes
  have hlen := hempty fifo hf
  have hspace := hfull fifo hf
  have hread := hholds.read_lt
  rw [hholds.dataLen] at hlen
  rw [hholds.spaceLen] at hspace
  omega

/-! ### Steps -/

@[simp] theorem Stage.resume_wakes (stage : Stage) : stage.resume.wakes = stage.wakes := by
  cases stage <;> rfl

theorem Stage.resume_eq_releaseAndReturn {stage : Stage} (h : stage.resume = .releaseAndReturn) :
    stage = .releaseAndReturn := by
  cases stage <;> first | rfl | cases h

theorem Sys.wakeWriter_at (s : Sys) :
    s.wakeWriter.writerAt = s.writerAt ∨ s.wakeWriter.writerAt = s.writerAt.resume := by
  unfold Sys.wakeWriter
  simp only
  split
  · exact .inr rfl
  · exact .inl rfl

theorem Sys.wakeReader_at (s : Sys) :
    s.wakeReader.readerAt = s.readerAt ∨ s.wakeReader.readerAt = s.readerAt.resume := by
  unfold Sys.wakeReader
  simp only
  split
  · exact .inr rfl
  · exact .inl rfl

theorem Inv.readerMoves (h : Inv s) (lock : Option Party) {q : RtWqueue Party} {stage : Stage}
    (hreader : Waits .reader stage q (s.Empty ∨ s.WriterWakes)) (hwakes : s.ReaderWakes → stage.wakes = true)
    (hcount : stage = .idle ∨ s.readerAt ≠ .idle) :
    Inv { s with lock := lock, readerQueue := q, readerAt := stage } :=
  ⟨h.readers, h.writers, h.pending, hreader, h.writer.mono fun hr => hr.imp_right hwakes,
    hcount.imp_right fun hne => h.count.resolve_left hne, h.ret_le, h.buf_lt, h.wakeup⟩

theorem Inv.writerMoves (h : Inv s) (lock : Option Party) {q : RtWqueue Party} {stage : Stage}
    (hwriter : Waits .writer stage q (s.Full ∨ s.ReaderWakes))
    (hwakes : s.WriterWakes → stage.wakes = true) (hstage : stage ≠ .releaseAndReturn) :
    Inv { s with lock := lock, writerQueue := q, writerAt := stage } :=
  ⟨h.readers, h.writers, h.pending, h.reader.mono fun hr => hr.imp_right fun hw => .inl (hwakes hw), hwriter,
    h.count, h.ret_le, h.buf_lt, fun he => absurd he hstage⟩

theorem inv_wakeWriter (h : Inv s) {stage : Stage} (hs : s.readerAt ≠ .suspended) (hidle : s.readerAt ≠ .idle)
    (hs' : stage ≠ .suspended) (hwaits : stage.waits = true → s.readerAt.waits = true) :
    Inv { s.wakeWriter with readerAt := stage } := by
  have hwakes : s.WriterWakes → s.wakeWriter.WriterWakes := by
    intro hw
    unfold Sys.WriterWakes at hw ⊢
    rcases s.wakeWriter_at with hat | hat
    · rw [hat]
      exact hw
    · rw [hat, Stage.resume_wakes]
      refine hw.imp_right fun hrelease => ⟨?_, hrelease.2⟩
      rw [hrelease.1]
      rfl
  refine ⟨h.readers, h.writers, h.pending, ?_, h.writer.wakeup _, .inr (h.count.resolve_left hidle), h.ret_le,
    h.buf_lt, fun he => ?_⟩
  · exact (h.reader.move hs hs' hwaits).mono fun hr => hr.imp_right hwakes
  · rcases s.wakeWriter_at with hat | hat
    · exact h.wakeup (hat.symm.trans he)
    · exact h.wakeup (Stage.resume_eq_releaseAndReturn (hat.symm.trans he))

theorem inv_wakeReader (h : Inv s) {stage : Stage} (hs : s.writerAt ≠ .suspended) (hs' : stage ≠ .suspended)
    (hrelease : stage ≠ .releaseAndReturn) (hwaits : stage.waits = true → s.writerAt.waits = true) :
    Inv { s.wakeReader with writerAt := stage } := by
  have hwakes : s.ReaderWakes → s.wakeReader.ReaderWakes := by
    intro hw
    unfold Sys.ReaderWakes at hw ⊢
    rcases s.wakeReader_at with hat | hat
    · rw [hat]
      exact hw
    · rw [hat, Stage.resume_wakes]
      exact hw
  refine ⟨h.readers, h.writers, h.pending, h.reader.wakeup _, ?_, ?_, h.ret_le, h.buf_lt, fun he => absurd he hrelease⟩
  · exact (h.writer.move hs hs' hwaits).mono fun hr => hr.imp_right hwakes
  · refine h.count.imp_left fun hidle => ?_
    have hat : s.wakeReader.readerAt = .idle := by
      rcases s.wakeReader_at with hat | hat
      · rw [hat, hidle]
      · rw [hat, hidle]
        rfl
    exact hat

theorem inv_readPass (h : Inv s) (hat : s.readerAt = .passing) {pipe : RtPipe} {data : List UInt8} {o : Outcome}
    (hp : readPass s.pipe false s.count = some (pipe, data, o)) :
    Inv { s with pipe := pipe, received := s.received ++ data, readerAt := readerAfter o } := by
  have hs : s.readerAt ≠ .suspended := by rw [hat]; decide
  have hcount : s.count % 65536 ≠ 0 := h.count.resolve_left (by rw [hat]; decide)
  obtain ⟨fifo, q, hf, hholds, hwritten⟩ := h.pending
  obtain ⟨fifo', q', rfl, hholds', rfl, ho⟩ := readPass_blocking hf hholds h.writers hcount hp
  have hpending : s.written = s.received ++ data ++ q' := by rw [hwritten, List.append_assoc]
  rcases ho with ho | ⟨ho, rfl⟩
  · rw [ho]
    exact ⟨h.readers, h.writers, ⟨_, _, rfl, hholds', hpending⟩, h.reader.leave hs (fun he => (by cases he)) rfl,
      h.writer.mono fun _ => .inr rfl, .inr hcount, h.ret_le, h.buf_lt, h.wakeup⟩
  · rw [ho]
    refine ⟨h.readers, h.writers, ⟨_, _, rfl, hholds', hpending⟩, h.reader.fail hs (.inl fun fifo hfifo => ?_),
      h.writer.mono fun _ => .inr rfl, .inr hcount, h.ret_le, h.buf_lt, h.wakeup⟩
    cases hfifo
    exact hholds'.dataLen

theorem inv_writePass (h : Inv s) (hat : s.writerAt = .passing) {pipe : RtPipe} {ret : ℕ} {o : Outcome}
    (hp : writePass s.pipe false s.buf s.ret = some (pipe, ret, o)) :
    Inv { s with
      pipe := pipe
      ret := ret
      wakeup := s.wakeup || decide (s.pipe.readers ≠ 0)
      written := s.written ++ (s.buf.drop s.ret).take (ret - s.ret)
      writerAt := writerAfter o } := by
  have hs : s.writerAt ≠ .suspended := by rw [hat]; decide
  have hwakeup : (s.wakeup || decide (s.pipe.readers ≠ 0)) = true := by
    rw [decide_eq_true h.readers, Bool.or_true]
  obtain ⟨fifo, q, hf, hholds, hwritten⟩ := h.pending
  obtain ⟨fifo', rfl, hholds', hret, ho⟩ := writePass_blocking hf hholds h.readers h.ret_le h.buf_lt hp
  have hpending : s.written ++ (s.buf.drop s.ret).take (ret - s.ret) =
      s.received ++ (q ++ (s.buf.drop s.ret).take (ret - s.ret)) := by rw [hwritten, List.append_assoc]
  rcases ho with ho | ⟨ho, hspace⟩
  · rw [ho]
    exact ⟨h.readers, h.writers, ⟨_, _, rfl, hholds', hpending⟩, h.reader.mono fun _ => .inr (.inr ⟨rfl, hwakeup⟩),
      h.writer.leave hs (fun he => (by cases he)) rfl, h.count, hret, h.buf_lt, fun _ => hwakeup⟩
  · rw [ho]
    refine ⟨h.readers, h.writers, ⟨_, _, rfl, hholds', hpending⟩, h.reader.mono fun _ => .inr (.inl rfl),
      h.writer.fail hs (.inl fun fifo hfifo => ?_), h.count, hret, h.buf_lt, fun he => (by cases he)⟩
    cases hfifo
    exact hspace

theorem inv_pipeFopsRead (h : Inv s) (hstep : pipeFopsRead s = some s') : Inv s' := by
  have hreader := h.reader
  unfold pipeFopsRead at hstep
  cases hat : s.readerAt with
  | idle => simp [hat] at hstep
  | suspended => simp [hat] at hstep
  | locking =>
    simp only [hat] at hstep hreader
    split at hstep
    · cases hstep
      refine h.readerMoves (some .reader) (hreader.move (by decide) (by decide) fun he => (by cases he)) (fun hw => ?_)
        (.inr (by rw [hat]; decide))
      rw [Sys.ReaderWakes, hat] at hw
      cases hw
    · cases hstep
  | passing =>
    simp only [hat] at hstep
    obtain ⟨⟨pipe, data, o⟩, hp, rfl⟩ := Option.map_eq_some_iff.mp hstep
    exact inv_readPass h hat hp
  | releasing =>
    simp only [hat] at hstep hreader
    cases hstep
    exact h.readerMoves none (hreader.move (by decide) (by decide) fun _ => rfl) (fun _ => rfl) (.inr (by rw [hat]; decide))
  | waking =>
    simp only [hat] at hstep
    cases hstep
    exact inv_wakeWriter h (by rw [hat]; decide) (by rw [hat]; decide) (by decide) fun _ => by rw [hat]; rfl
  | entering =>
    simp only [hat] at hstep hreader
    cases hstep
    refine h.readerMoves s.lock hreader.enter (fun hw => ?_) (.inr (by rw [hat]; decide))
    rw [Sys.ReaderWakes, hat] at hw
    cases hw
  | ready =>
    simp only [hat] at hstep hreader
    cases hstep
    refine h.readerMoves s.lock hreader.exit (fun hw => ?_) (.inr (by rw [hat]; decide))
    rw [Sys.ReaderWakes, hat] at hw
    cases hw
  | leaving =>
    simp only [hat] at hstep hreader
    cases hstep
    refine h.readerMoves s.lock hreader.remove (fun hw => ?_) (.inr (by rw [hat]; decide))
    rw [Sys.ReaderWakes, hat] at hw
    cases hw
  | wakeAndReturn =>
    simp only [hat] at hstep
    cases hstep
    exact inv_wakeWriter h (by rw [hat]; decide) (by rw [hat]; decide) (by decide) fun he => (by cases he)
  | releaseAndReturn =>
    simp only [hat] at hstep hreader
    cases hstep
    refine h.readerMoves none (hreader.move (by decide) (by decide) fun he => (by cases he)) (fun hw => ?_) (.inl rfl)
    rw [Sys.ReaderWakes, hat] at hw
    cases hw

theorem not_writerWakes (hat : s.writerAt.wakes = false) (hrelease : s.writerAt ≠ .releaseAndReturn) :
    ¬s.WriterWakes := by
  rintro (hw | ⟨hw, -⟩)
  · exact absurd (hw.symm.trans hat) Bool.noConfusion
  · exact hrelease hw

theorem inv_pipeFopsWrite (h : Inv s) (hstep : pipeFopsWrite s = some s') : Inv s' := by
  have hwriter := h.writer
  unfold pipeFopsWrite at hstep
  cases hat : s.writerAt with
  | idle => simp [hat] at hstep
  | suspended => simp [hat] at hstep
  | locking =>
    simp only [hat] at hstep hwriter
    split at hstep
    · cases hstep
      refine h.writerMoves (some .writer) (hwriter.move (by decide) (by decide) fun he => (by cases he)) (fun hw => ?_)
        (by decide)
      exact absurd hw (not_writerWakes (by rw [hat]; rfl) (by rw [hat]; decide))
    · cases hstep
  | passing =>
    simp only [hat] at hstep
    obtain ⟨⟨pipe, ret, o⟩, hp, rfl⟩ := Option.map_eq_some_iff.mp hstep
    exact inv_writePass h hat hp
  | releasing =>
    simp only [hat] at hstep hwriter
    cases hstep
    exact h.writerMoves none (hwriter.move (by decide) (by decide) fun _ => rfl) (fun _ => rfl) (by decide)
  | waking =>
    simp only [hat] at hstep
    cases hstep
    exact inv_wakeReader h (by rw [hat]; decide) (by decide) (by decide) fun _ => by rw [hat]; rfl
  | entering =>
    simp only [hat] at hstep hwriter
    cases hstep
    refine h.writerMoves s.lock hwriter.enter (fun hw => ?_) (by split <;> decide)
    exact absurd hw (not_writerWakes (by rw [hat]; rfl) (by rw [hat]; decide))
  | ready =>
    simp only [hat] at hstep hwriter
    cases hstep
    refine h.writerMoves s.lock hwriter.exit (fun hw => ?_) (by decide)
    exact absurd hw (not_writerWakes (by rw [hat]; rfl) (by rw [hat]; decide))
  | leaving =>
    simp only [hat] at hstep hwriter
    cases hstep
    refine h.writerMoves s.lock hwriter.remove (fun hw => ?_) (by decide)
    exact absurd hw (not_writerWakes (by rw [hat]; rfl) (by rw [hat]; decide))
  | releaseAndReturn =>
    simp only [hat] at hstep hwriter
    cases hstep
    rw [if_pos (h.wakeup hat)]
    exact @Inv.writerMoves s h none s.writerQueue .wakeAndReturn (hwriter.leave (by decide) (by decide) rfl) (fun _ => rfl)
      (by decide)
  | wakeAndReturn =>
    simp only [hat] at hstep
    cases hstep
    exact inv_wakeReader h (by rw [hat]; decide) (by decide) (by decide) fun he => (by cases he)

theorem step_inv {a : Act} (h : Inv s) (ha : Counts a ∧ ReadsSome a) (hstep : step s a = some s') : Inv s' := by
  cases a with
  | read count =>
    simp only [step] at hstep
    split at hstep
    · next hat =>
      split at hstep
      · cases hstep
        exact h
      · cases hstep
        have hreader := h.reader
        rw [hat] at hreader
        exact ⟨h.readers, h.writers, h.pending, hreader.leave (by decide) (fun he => (by cases he)) rfl, h.writer.mono fun hr =>
          hr.imp_right fun hw => (by rw [Sys.ReaderWakes, hat] at hw; cases hw), .inr ha.2, h.ret_le, h.buf_lt, h.wakeup⟩
    · cases hstep
  | write buf =>
    simp only [step] at hstep
    split at hstep
    · next hat =>
      split at hstep
      · cases hstep
        exact h
      · split at hstep
        · cases hstep
          exact h
        · cases hstep
          have hwriter := h.writer
          rw [hat] at hwriter
          have hwakes := @not_writerWakes s (by rw [hat]; rfl) (by rw [hat]; decide)
          exact ⟨h.readers, h.writers, h.pending, h.reader.mono fun hr => hr.imp_right fun hw => absurd hw hwakes,
            hwriter.leave (by decide) (fun he => (by cases he)) rfl, h.count, Nat.zero_le _, Nat.lt_succ_of_le ha.1.2,
            fun he => (by cases he)⟩
    · cases hstep
  | reader => exact inv_pipeFopsRead h hstep
  | writer => exact inv_pipeFopsWrite h hstep

/-- Along every run in which no read asks for a multiple of 65536 bytes the two sides do not block each
other. -/
theorem pipe_never_deadlocks {k bufsz : ℕ} (hpos : 2 ^ k ≤ bufsz) (hlt : bufsz < 2 ^ 15) (isNamed : Bool)
    (pool : ℕ → UInt8) (readerFlag writerFlag : Bool) (acts : List Act) (hcounts : ∀ a ∈ acts, Counts a)
    (hC : ∀ a ∈ acts, ReadsSome a)
    (hrun : exec step (opened k bufsz isNamed pool readerFlag writerFlag) acts = some s') : NoDeadlock s' :=
  (exec_inv_of_forall Inv (fun a => Counts a ∧ ReadsSome a) (fun _ _ _ h ha hstep => step_inv h ha hstep)
    (inv_opened hpos hlt isNamed pool readerFlag writerFlag) (fun a ha => ⟨hcounts a ha, hC a ha⟩) hrun).noDeadlock

instance : DecidablePred Counts
  | .read _ => inferInstanceAs (Decidable (_ ≤ _))
  | .write _ => inferInstanceAs (Decidable (_ ∧ _))
  | .reader | .writer => isTrue trivial

instance : DecidablePred ReadsSome
  | .read _ => inferInstanceAs (Decidable (_ ≠ _))
  | .write _ | .reader | .writer => isTrue trivial

/-- The reader waits, and the writer fills the ring buffer, wakes it and waits. -/
def handoverRun : List Act :=
  [.read 2, .reader, .reader, .reader, .reader, .reader, .write [1, 2, 3, 4, 5], .writer, .writer, .writer, .writer, .writer]

theorem pipe_never_deadlocks_run :
    ((exec step (opened 2 4 false (fun _ => 0) false false) handoverRun).map fun s => (s.readerAt, s.writerAt)) =
      some (.ready, .leaving) ∧
    ∀ s', exec step (opened 2 4 false (fun _ => 0) false false) handoverRun = some s' → NoDeadlock s' :=
  ⟨by decide, fun _ hrun =>
    pipe_never_deadlocks (by decide) (by decide) false (fun _ => 0) false false handoverRun (by decide) (by decide) hrun⟩

/-- A byte is written, and a read of 65536 bytes is suspended beside it. -/
theorem pipe_reader_suspended :
    ¬∀ s', exec step (opened 2 4 false (fun _ => 0) false false)
      ([.write [7], .writer, .writer, .writer, .writer, .read 65536] ++ List.replicate 11 .reader) = some s' →
        NoDeadlock s' := by
  intro hall
  rcases (hall _ rfl).reader rfl with hempty | hwakes
  · exact absurd (hempty _ rfl) (by decide)
  · exact not_writerWakes rfl (fun he => (by cases he)) hwakes

end RtThread.Drivers.PipeWait
