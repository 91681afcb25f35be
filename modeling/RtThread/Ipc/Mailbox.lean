import RtThread.Lib.Ring
import RtThread.Lib.Transition
import RtThread.Lib.Word
import RtThread.Ipc.Calls

/-!
# Mailboxes (`ipc.c:1293-1713`)

`rt_mb_send_wait` and `rt_mb_recv` are loops: a thread that finds the mailbox full
(empty) is suspended, and after it was made ready it checks again, with what is left
of its timeout. Each pass through a loop is one interrupt-disabled section.
-/

namespace RtThread.Ipc.Mailbox

open RtThread.Lib RtThread.Lib.Word RtThread.Lib.Transition
open RtThread.Ipc.Base RtThread.Ipc.Calls

/-- The two suspend lists: `parent.suspend_thread` and `suspend_sender_thread`. -/
inductive Side where
  | receiver
  | sender
  deriving DecidableEq

/-- `struct rt_mailbox` (`rtdef.h:706-719`); the four counters are `rt_uint16_t`. -/
structure RtMailbox (T V : Type*) where
  msgPool : ℕ → V
  size : ℕ
  entry : ℕ
  inOffset : ℕ
  outOffset : ℕ
  suspend : Side → List T
  flag : IpcFlag

/-- `suspended` says which threads have the state `RT_THREAD_SUSPEND`. -/
structure State (T V : Type*) where
  mb : RtMailbox T V
  thread : T → Thread
  suspended : T → Bool
  tick : ℕ

variable {T V : Type*} [DecidableEq T]

def State.setError (s : State T V) (t : T) (e : RtErr) : State T V :=
  { s with thread := Function.update s.thread t { s.thread t with error := e } }

/-- `rt_mb_init` (`ipc.c:1293-1321`). -/
def rtMbInit (msgpool : ℕ → V) (size : ℕ) (flag : IpcFlag) : RtMailbox T V :=
  ⟨msgpool, size % 2 ^ 16, 0, 0, 0, fun _ => [], flag⟩

/-- The caller is suspended, and its timer started when there is a waiting time
(`ipc.c:1487-1506`, `ipc.c:1635-1654`). -/
def suspendOn (s : State T V) (side : Side) (t : T) (timeout : ℤ) : State T V :=
  { s with
    mb := { s.mb with
      suspend := Function.update s.mb.suspend side (rtIpcListSuspend s.mb.flag
        (fun u => (s.thread u).currentPriority) (s.mb.suspend side) t) }
    thread := Function.update s.thread t ((s.thread t).suspend timeout)
    suspended := Function.update s.suspended t true }

/-- `rt_ipc_list_resume` on a suspend list that is not empty. -/
def resumeOne (s : State T V) (side : Side) : State T V :=
  match s.mb.suspend side with
  | w :: rest =>
    { s with
      mb := { s.mb with suspend := Function.update s.mb.suspend side rest }
      thread := Function.update s.thread w (s.thread w).resume
      suspended := Function.update s.suspended w false }
  | [] => s

/-- `rt_thread_timeout` (`thread.c:747-769`). -/
def rtThreadTimeout (s : State T V) (t : T) : State T V :=
  { s with
    mb := { s.mb with suspend := fun side => (s.mb.suspend side).erase t }
    thread := Function.update s.thread t (s.thread t).timeout
    suspended := Function.update s.suspended t false }

/-- How a section ends: the call returns, with a mail or not, or the thread is suspended
with `tick_delta`. -/
inductive Outcome (V : Type*) where
  | returned (e : RtErr)
  | mail (v : V)
  | suspended (tickDelta : ℕ)

/-- The mail is stored and a waiting receiver made ready (`ipc.c:1534-1560`). -/
def rtMbStore (s : State T V) (value : V) : State T V :=
  resumeOne { s with mb := { s.mb with
    msgPool := Function.update s.mb.msgPool s.mb.inOffset value
    inOffset := if s.mb.size ≤ inc 16 s.mb.inOffset then 0 else inc 16 s.mb.inOffset
    entry := inc 16 s.mb.entry } } .receiver

/-- The front is taken and a waiting sender made ready (`ipc.c:1682-1713`). -/
def rtMbTake (s : State T V) : State T V :=
  resumeOne { s with mb := { s.mb with
    outOffset := if s.mb.size ≤ inc 16 s.mb.outOffset then 0 else inc 16 s.mb.outOffset
    entry := dec 16 s.mb.entry } } .sender

/-- One pass of the loop of `rt_mb_send_wait` (`ipc.c:1472-1560`). -/
def rtMbSendPass (s : State T V) (t : T) (value : V) (timeout : ℤ) (tickDelta : ℕ) :
    State T V × Outcome V :=
  if s.mb.entry = s.mb.size then
    if timeout = 0 then (s.setError t .eok, .returned .efull)
    else (suspendOn (s.setError t .eok) .sender t timeout,
      .suspended (if 0 < timeout then s.tick else tickDelta))
  else (rtMbStore s value, .returned .eok)

/-- One pass of the loop of `rt_mb_recv` (`ipc.c:1618-1713`). -/
def rtMbRecvPass (s : State T V) (t : T) (timeout : ℤ) (tickDelta : ℕ) : State T V × Outcome V :=
  if s.mb.entry = 0 then
    if timeout = 0 then ((s.setError t .eok).setError t .etimeout, .returned .etimeout)
    else (suspendOn (s.setError t .eok) .receiver t timeout,
      .suspended (if 0 < timeout then s.tick else tickDelta))
  else (rtMbTake s, .mail (s.mb.msgPool s.mb.outOffset))

/-- `rt_mb_send_wait` up to its first `rt_schedule` (`ipc.c:1441-1512`). -/
def rtMbSendWait (s : State T V) (t : T) (value : V) (timeout : ℤ) : State T V × Outcome V :=
  if s.mb.entry = s.mb.size ∧ timeout = 0 then (s, .returned .efull)
  else rtMbSendPass s t value timeout 0

/-- `rt_mb_send` (`ipc.c:1573-1576`), also from an interrupt of thread `t`. -/
def rtMbSend (s : State T V) (t : T) (value : V) : State T V × Outcome V :=
  rtMbSendWait s t value 0

/-- `rt_mb_recv` up to its first `rt_schedule` (`ipc.c:1589-1660`). -/
def rtMbRecv (s : State T V) (t : T) (timeout : ℤ) : State T V × Outcome V :=
  if s.mb.entry = 0 ∧ timeout = 0 then (s, .returned .etimeout)
  else rtMbRecvPass s t timeout 0

/-! ### The system -/

inductive Call (V : Type*) where
  | send (value : V)
  | recv

def Call.side : Call V → Side
  | .send _ => .sender
  | .recv => .receiver

def Call.first (s : State T V) (t : T) (timeout : ℤ) : Call V → State T V × Outcome V
  | .send value => rtMbSendWait s t value timeout
  | .recv => rtMbRecv s t timeout

def Call.pass (s : State T V) (t : T) (timeout : ℤ) (tickDelta : ℕ) : Call V → State T V × Outcome V
  | .send value => rtMbSendPass s t value timeout tickDelta
  | .recv => rtMbRecvPass s t timeout tickDelta

/-- The local variables of a call that has been suspended. -/
structure Frame (V : Type*) where
  call : Call V
  timeout : ℤ
  tickDelta : ℕ

/-- `accepted` and `received` are history: the values of the sends that returned `RT_EOK`
and the values that receives have returned, in order. -/
structure Sys (T V : Type*) where
  state : State T V
  frame : T → Option (Frame V)
  accepted : List V
  received : List V

def start (mb : RtMailbox T V) (thread : T → Thread) (tick : ℕ) : Sys T V :=
  ⟨⟨mb, thread, fun _ => false, tick⟩, fun _ => none, [], []⟩

def Sys.record (s : Sys T V) (t : T) (call : Call V) (timeout : ℤ) (r : State T V × Outcome V) :
    Sys T V :=
  match r.2, call with
  | .returned .eok, .send value =>
    { s with state := r.1, frame := Function.update s.frame t none, accepted := s.accepted ++ [value] }
  | .returned _, _ => { s with state := r.1, frame := Function.update s.frame t none }
  | .mail v, _ =>
    { s with state := r.1, frame := Function.update s.frame t none, received := s.received ++ [v] }
  | .suspended tickDelta, _ =>
    { s with state := r.1, frame := Function.update s.frame t (some ⟨call, timeout, tickDelta⟩) }

inductive Act (T V : Type*) where
  | call (t : T) (call : Call V) (timeout : ℤ)
  | resume (t : T)
  | interruptSend (t : T) (value : V)
  | timeout (t : T)
  | tick

/-- One section. A call that was suspended goes on when its thread is ready again: it
returns `thread->error`, or checks again with the rest of its timeout. An interrupt may
come while any thread `t` runs and leaves the calls of the threads alone. -/
def step (s : Sys T V) : Act T V → Option (Sys T V)
  | .call t call timeout =>
    match s.frame t with
    | some _ => none
    | none => some (s.record t call timeout (call.first s.state t timeout))
  | .resume t =>
    match s.frame t with
    | none => none
    | some f =>
      if s.state.suspended t = true then none
      else if (s.state.thread t).error ≠ .eok then
        some (s.record t f.call f.timeout (s.state, .returned (s.state.thread t).error))
      else
        let (timeout, tickDelta) := recalculate f.timeout f.tickDelta s.state.tick
        some (s.record t f.call timeout (f.call.pass s.state t timeout tickDelta))
  | .interruptSend t value =>
    match rtMbSend s.state t value with
    | (st, .returned .eok) => some { s with state := st, accepted := s.accepted ++ [value] }
    | (st, _) => some { s with state := st }
  | .timeout t =>
    if s.state.suspended t = true ∧ (s.state.thread t).threadTimer = true then
      some { s with state := rtThreadTimeout s.state t }
    else none
  | .tick => some { s with state := { s.state with tick := inc 32 s.state.tick } }

end RtThread.Ipc.Mailbox
