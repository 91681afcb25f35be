import RtThread.Lib.Transition
import RtThread.Lib.Word
import RtThread.Ipc.Base

/-!
# Data queues (`dataqueue.c:22-265`, `dataqueue.h`)

A queue of data items in an array. The two indices are `rt_uint16_t` counters that are never
reduced: an item is stored at `put_index % size`, and the queue is full when the difference of
the indices is `size`. In C the indices are promoted to `int` before they are subtracted, so the
difference is negative when only `put_index` has passed 65535.
-/

namespace RtThread.Drivers.DataQueue

open RtThread.Lib.Word RtThread.Ipc.Base

/-- `struct rt_data_queue` (`dataqueue.h:23-39`); `V` is the type of the items. -/
structure RtDataQueue (V T : Type*) where
  size : ℕ
  lwm : ℕ
  getIndex : ℕ
  putIndex : ℕ
  queue : ℕ → V
  suspendedPushList : List T
  suspendedPopList : List T

structure State (V T : Type*) where
  dq : RtDataQueue V T
  thread : T → Thread
  suspended : T → Bool

variable {V T : Type*}

/-- `rt_data_queue_init` (`dataqueue.c:22-48`); `queue` is what the allocated memory held before. -/
def rtDataQueueInit (queue : ℕ → V) (size lwm : ℕ) (thread : T → Thread) : State V T :=
  ⟨⟨size, lwm, 0, 0, queue, [], []⟩, thread, fun _ => false⟩

/-- How a pass of `rt_data_queue_push` or `rt_data_queue_pop` ends. -/
inductive Outcome (V : Type*) where
  | failed (e : RtErr)
  | suspended
  | pushed (v : V)
  | popped (v : V)

variable [DecidableEq T]

/-- `rt_thread_suspend` of the running thread, with its timer (`dataqueue.c:79-93`). -/
def suspend (s : State V T) (t : T) (timeout : ℤ) : State V T :=
  { s with
    thread := Function.update s.thread t (({ s.thread t with error := .eok } : Thread).suspend timeout)
    suspended := Function.update s.suspended t true }

/-- `rt_thread_resume`, apart from the list the thread is on. -/
def resume (s : State V T) (t : T) : State V T :=
  { s with
    thread := Function.update s.thread t (s.thread t).resume
    suspended := Function.update s.suspended t false }

def full (dq : RtDataQueue V T) : Prop := (dq.putIndex : ℤ) - (dq.getIndex : ℤ) = (dq.size : ℤ)

instance (dq : RtDataQueue V T) : Decidable (full dq) := inferInstanceAs (Decidable (_ = _))

/-- The item is stored, and the first waiting reader is resumed (`dataqueue.c:107-120`). -/
def store (s : State V T) (v : V) : State V T :=
  let s : State V T := { s with dq := { s.dq with
    queue := Function.update s.dq.queue (s.dq.putIndex % s.dq.size) v
    putIndex := inc 16 s.dq.putIndex } }
  match s.dq.suspendedPopList with
  | w :: rest => resume { s with dq := { s.dq with suspendedPopList := rest } } w
  | [] => s

/-- One pass of the loop of `rt_data_queue_push` (`dataqueue.c:65-136`). -/
def rtDataQueuePushPass (s : State V T) (t : T) (v : V) (timeout : ℤ) : State V T × Outcome V :=
  if full s.dq then
    if timeout = 0 then (s, .failed .etimeout)
    else
      (suspend { s with dq := { s.dq with suspendedPushList := s.dq.suspendedPushList ++ [t] } } t timeout,
        .suspended)
  else (store s v, .pushed v)

/-- The front item is removed, and when at most `lwm` items are left, the first waiting writer
is resumed (`dataqueue.c:201-227`). -/
def fetch (s : State V T) : State V T :=
  let s : State V T := { s with dq := { s.dq with getIndex := inc 16 s.dq.getIndex } }
  if (s.dq.putIndex : ℤ) - (s.dq.getIndex : ℤ) ≤ (s.dq.lwm : ℤ) then
    match s.dq.suspendedPushList with
    | w :: rest => resume { s with dq := { s.dq with suspendedPushList := rest } } w
    | [] => s
  else s

/-- One pass of the loop of `rt_data_queue_pop` (`dataqueue.c:156-238`). -/
def rtDataQueuePopPass (s : State V T) (t : T) (timeout : ℤ) : State V T × Outcome V :=
  if s.dq.getIndex = s.dq.putIndex then
    if timeout = 0 then (s, .failed .etimeout)
    else
      (suspend { s with dq := { s.dq with suspendedPopList := s.dq.suspendedPopList ++ [t] } } t timeout,
        .suspended)
  else (fetch s, .popped (s.dq.queue (s.dq.getIndex % s.dq.size)))

/-- `rt_data_queue_peak` (`dataqueue.c:242-265`). -/
def rtDataQueuePeak (s : State V T) : Option V :=
  if s.dq.getIndex = s.dq.putIndex then none else some (s.dq.queue (s.dq.getIndex % s.dq.size))

/-- `rt_thread_timeout` (`thread.c:747-769`): the thread is removed from the list it is on. -/
def rtThreadTimeout (s : State V T) (t : T) : State V T :=
  { s with
    dq := { s.dq with
      suspendedPushList := s.dq.suspendedPushList.erase t
      suspendedPopList := s.dq.suspendedPopList.erase t }
    thread := Function.update s.thread t (s.thread t).timeout
    suspended := Function.update s.suspended t false }

end RtThread.Drivers.DataQueue
