import RtThread.Lib.Transition
import RtThread.Lib.Word
import RtThread.Ipc.Base

/-!
# Message queues (`ipc.c:1762-2325`)

The pool is an array of slots, each a `next` link with `msg_size` bytes behind it; a slot
is named by its index. A send takes a slot from the free list, copies the message with
interrupts enabled and links the slot in a second section; a receive unlinks a slot,
copies and puts it back. A dereference of a null link has no result.
-/

namespace RtThread.Ipc.MessageQueue

open RtThread.Lib.Word RtThread.Ipc.Base

/-- `struct rt_messagequeue` (`rtdef.h:727-741`); `msg_size`, `max_msgs` and `entry` are
`rt_uint16_t`. -/
structure RtMessagequeue (T : Type*) where
  msgSize : ℕ
  maxMsgs : ℕ
  entry : ℕ
  msgQueueHead : Option ℕ
  msgQueueTail : Option ℕ
  msgQueueFree : Option ℕ
  suspendThread : List T
  flag : IpcFlag

/-- `next` and `data` are the contents of the pool. -/
structure State (T : Type*) where
  mq : RtMessagequeue T
  next : ℕ → Option ℕ
  data : ℕ → ℕ → UInt8
  thread : T → Thread
  suspended : T → Bool
  tick : ℕ

variable {T : Type*}

/-- The loop of `rt_mq_init` (`ipc.c:1814-1821`): the `next` links and the free list. -/
def rtMqInitLoop (next : ℕ → Option ℕ) : ℕ → (ℕ → Option ℕ) × Option ℕ
  | 0 => (next, none)
  | temp + 1 =>
    (Function.update (rtMqInitLoop next temp).1 temp (rtMqInitLoop next temp).2, some temp)

/-- `rt_mq_init` (`ipc.c:1780-1827`), with `RT_ALIGN_SIZE = 2 ^ k` and 4-byte pointers;
`next` and `data` are what the memory of the pool held before. -/
def rtMqInit (k : ℕ) (next : ℕ → Option ℕ) (data : ℕ → ℕ → UInt8) (msgSize poolSize : ℕ)
    (flag : IpcFlag) (thread : T → Thread) (tick : ℕ) : State T :=
  let size := alignUp k msgSize % 2 ^ 16
  let max := poolSize / (size + 4) % 2 ^ 16
  ⟨⟨size, max, 0, none, none, (rtMqInitLoop next max).2, [], flag⟩, (rtMqInitLoop next max).1, data,
    thread, fun _ => false, tick⟩

/-- How a first section ends: the call returns, it goes on with a slot, or the thread is
suspended. -/
inductive Outcome where
  | returned (e : RtErr)
  | holds (msg : ℕ)
  | suspended (tickDelta : ℕ)

/-- The first section of `rt_mq_send` and `rt_mq_urgent` (`ipc.c:1974-1997`). -/
def takeFree (s : State T) (size : ℕ) : State T × Outcome :=
  if s.mq.msgSize < size then (s, .returned .error)
  else
    match s.mq.msgQueueFree with
    | none => (s, .returned .efull)
    | some msg => ({ s with mq := { s.mq with msgQueueFree := s.next msg } }, .holds msg)

def copyIn (s : State T) (msg : ℕ) (buffer : List UInt8) : State T :=
  { s with data := Function.update s.data msg fun j => buffer.getD j (s.data msg j) }

/-- What `rt_mq_send` does between its sections (`ipc.c:1999-2002`). -/
def sendCopy (s : State T) (msg : ℕ) (buffer : List UInt8) : State T :=
  copyIn { s with next := Function.update s.next msg none } msg buffer

/-- What `rt_mq_urgent` does between its sections (`ipc.c:2089-2090`). -/
def urgentCopy (s : State T) (msg : ℕ) (buffer : List UInt8) : State T := copyIn s msg buffer

variable [DecidableEq T]

/-- The first waiting receiver is made ready (`ipc.c:2023-2025`). -/
def resumeOne (s : State T) : State T :=
  match s.mq.suspendThread with
  | w :: rest =>
    { s with
      mq := { s.mq with suspendThread := rest }
      thread := Function.update s.thread w (s.thread w).resume
      suspended := Function.update s.suspended w false }
  | [] => s

/-- The second section of `rt_mq_send` (`ipc.c:2004-2039`). -/
def sendLink (s : State T) (msg : ℕ) : State T :=
  resumeOne { s with
    next := match s.mq.msgQueueTail with
      | some tail => Function.update s.next tail (some msg)
      | none => s.next
    mq := { s.mq with
      msgQueueTail := some msg
      msgQueueHead := if s.mq.msgQueueHead = none then some msg else s.mq.msgQueueHead
      entry := inc 16 s.mq.entry } }

/-- The second section of `rt_mq_urgent` (`ipc.c:2092-2123`). -/
def urgentLink (s : State T) (msg : ℕ) : State T :=
  resumeOne { s with
    next := Function.update s.next msg s.mq.msgQueueHead
    mq := { s.mq with
      msgQueueHead := some msg
      msgQueueTail := if s.mq.msgQueueTail = none then some msg else s.mq.msgQueueTail
      entry := inc 16 s.mq.entry } }

def State.setError (s : State T) (t : T) (e : RtErr) : State T :=
  { s with thread := Function.update s.thread t { s.thread t with error := e } }

def suspendOn (s : State T) (t : T) (timeout : ℤ) : State T :=
  { s with
    mq := { s.mq with
      suspendThread := rtIpcListSuspend s.mq.flag (fun u => (s.thread u).currentPriority)
        s.mq.suspendThread t }
    thread := Function.update s.thread t ((s.thread t).suspend timeout)
    suspended := Function.update s.suspended t true }

/-- The head of the queue is unlinked (`ipc.c:2237-2247`). -/
def unlinkHead (s : State T) : Option (State T × ℕ) :=
  s.mq.msgQueueHead.map fun msg =>
    ({ s with mq := { s.mq with
        msgQueueHead := s.next msg
        msgQueueTail := if s.mq.msgQueueTail = some msg then none else s.mq.msgQueueTail
        entry := dec 16 s.mq.entry } }, msg)

/-- One pass of the loop of `rt_mq_recv` (`ipc.c:2172-2250`). -/
def rtMqRecvPass (s : State T) (t : T) (timeout : ℤ) (tickDelta : ℕ) : Option (State T × Outcome) :=
  if s.mq.entry = 0 then
    if timeout = 0 then some ((s.setError t .eok).setError t .etimeout, .returned .etimeout)
    else some (suspendOn (s.setError t .eok) t timeout,
      .suspended (if 0 < timeout then s.tick else tickDelta))
  else (unlinkHead s).map fun r => (r.1, .holds r.2)

/-- `rt_mq_recv` up to its first `rt_schedule` or the copy (`ipc.c:2138-2250`). -/
def rtMqRecv (s : State T) (t : T) (timeout : ℤ) : Option (State T × Outcome) :=
  if s.mq.entry = 0 ∧ timeout = 0 then some (s, .returned .etimeout)
  else rtMqRecvPass s t timeout 0

/-- The bytes that `rt_mq_recv` copies to the buffer (`ipc.c:2253`). -/
def copyOut (s : State T) (msg size : ℕ) : List UInt8 :=
  (List.range (if s.mq.msgSize < size then s.mq.msgSize else size)).map (s.data msg)

/-- A slot is put to the free list (`ipc.c:2255-2261`). -/
def putFree (s : State T) (msg : ℕ) : State T :=
  { s with
    next := Function.update s.next msg s.mq.msgQueueFree
    mq := { s.mq with msgQueueFree := some msg } }

/-- `rt_ipc_list_resume_all` (`ipc.c:156-184`). -/
def resumeAll (s : State T) : State T :=
  { s with
    mq := { s.mq with suspendThread := [] }
    thread := s.mq.suspendThread.foldl
      (fun thread w => Function.update thread w
        ({ thread w with error := .error } : Thread).resume) s.thread
    suspended := s.mq.suspendThread.foldl (fun f w => Function.update f w false) s.suspended }

/-- The loop of `RT_IPC_CMD_RESET` (`ipc.c:2297-2311`), with a bound on its passes. -/
def releaseAll : ℕ → State T → Option (State T)
  | 0, _ => none
  | fuel + 1, s =>
    match s.mq.msgQueueHead with
    | none => some s
    | some msg =>
      releaseAll fuel (putFree { s with mq := { s.mq with
        msgQueueHead := s.next msg
        msgQueueTail := if s.mq.msgQueueTail = some msg then none else s.mq.msgQueueTail } } msg)

/-- `rt_mq_control` with `RT_IPC_CMD_RESET` (`ipc.c:2279-2325`); the queue has at most
`max_msgs` slots to release. -/
def rtMqReset (s : State T) : Option (State T) :=
  (releaseAll (s.mq.maxMsgs + 1) (resumeAll s)).map fun s =>
    { s with mq := { s.mq with entry := 0 } }

/-- `rt_thread_timeout` (`thread.c:747-769`). -/
def rtThreadTimeout (s : State T) (t : T) : State T :=
  { s with
    mq := { s.mq with suspendThread := s.mq.suspendThread.erase t }
    thread := Function.update s.thread t (s.thread t).timeout
    suspended := Function.update s.suspended t false }

end RtThread.Ipc.MessageQueue
