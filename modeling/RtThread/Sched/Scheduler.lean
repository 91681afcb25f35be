import RtThread.Ipc.Base
import RtThread.Lib.Transition
import RtThread.Sched.Bitmap

/-!
# The scheduler and the thread functions (`scheduler.c`, `thread.c`, one CPU)

A thread is in one list at a time, through its node `tlist`: a ready list or the list of
defunct threads here, or the suspend list of an IPC object. `rt_list_remove` takes it out
of the list that it is in. A function without a result stands for a failed assertion or
for the use of a null pointer or of the head of an empty list as a thread.
-/

namespace RtThread.Sched.Scheduler

open RtThread.Sched.Bitmap RtThread.Ipc.Base

/-- The states `RT_THREAD_INIT` to `RT_THREAD_CLOSE` (`rtdef.h:487-492`). -/
inductive Stat where
  | init
  | ready
  | suspend
  | running
  | close
  deriving DecidableEq, Repr

/-- The fields of `struct rt_thread` used here; `isSystem` is `rt_object_is_systemobject`
and `cleanup` says whether there is a cleanup function. -/
structure Thread where
  stat : Stat
  currentPriority : ℕ
  initPriority : ℕ
  masks : Masks
  error : RtErr
  threadTimer : Bool
  isSystem : Bool
  cleanup : Bool

structure State (T : Type*) where
  priorityTable : ℕ → List T
  bits : Bits
  lockNest : ℤ
  currentThread : Option T
  defunct : List T
  thread : T → Thread

variable {T : Type*}

/-- A thread as `_rt_thread_init` leaves it (`thread.c:117-206`). -/
def rtThreadInit (priority : ℕ) (isSystem cleanup : Bool) : Thread :=
  ⟨.init, priority, priority, .zero, .eok, false, isSystem, cleanup⟩

/-- `rt_system_scheduler_init` (`scheduler.c:199-247`). -/
def rtSystemSchedulerInit (thread : T → Thread) : State T :=
  ⟨fun _ => [], .empty, 0, none, [], thread⟩

variable [DecidableEq T]

def State.setThread (s : State T) (t : T) (f : Thread → Thread) : State T :=
  { s with thread := Function.update s.thread t (f (s.thread t)) }

def State.setStat (s : State T) (t : T) (stat : Stat) : State T :=
  s.setThread t fun th => { th with stat := stat }

def rtListRemove (s : State T) (t : T) : State T :=
  { s with priorityTable := fun p => (s.priorityTable p).erase t, defunct := s.defunct.erase t }

variable (prioMax : ℕ)

/-- `rt_schedule_insert_thread` (`scheduler.c:652-686`). -/
def rtScheduleInsertThread (s : State T) (t : T) : State T :=
  if s.currentThread = some t then s.setStat t .running
  else
    let th := s.thread t
    { s.setStat t .ready with
      priorityTable := Function.update s.priorityTable th.currentPriority
        (s.priorityTable th.currentPriority ++ [t])
      bits := s.bits.set prioMax th.masks }

/-- `rt_schedule_remove_thread` (`scheduler.c:749-779`). -/
def rtScheduleRemoveThread (s : State T) (t : T) : State T :=
  let th := s.thread t
  let s := rtListRemove s t
  if s.priorityTable th.currentPriority = [] then { s with bits := s.bits.clear prioMax th.masks }
  else s

omit [DecidableEq T] in
/-- `_get_highest_priority_thread` (`scheduler.c:170-192`). -/
def getHighestPriorityThread (s : State T) : Option (T × ℕ) :=
  (s.priorityTable (s.bits.highest prioMax)).head?.map fun t => (t, s.bits.highest prioMax)

/-- `rt_system_scheduler_start` (`scheduler.c:254-278`). -/
def rtSystemSchedulerStart (s : State T) : Option (State T) :=
  if s.bits.group = 0 then none
  else (getHighestPriorityThread prioMax s).map fun (toThread, _) =>
    (rtScheduleRemoveThread prioMax { s with currentThread := some toThread } toThread).setStat toThread .running

/-- The thread to run next, and whether the current one goes back to its ready list
(`scheduler.c:418-430`). -/
def chooseThread (s : State T) (current toThread : T) (highest : ℕ) : T × Bool :=
  if (s.thread current).stat = .running then
    if (s.thread current).currentPriority < highest then (current, false) else (toThread, true)
  else (toThread, false)

/-- The switch to another thread (`scheduler.c:434-447`). -/
def switchTo (s : State T) (current toThread : T) (needInsert : Bool) : State T :=
  let s := { s with currentThread := some toThread }
  let s := if needInsert then rtScheduleInsertThread prioMax s current else s
  (rtScheduleRemoveThread prioMax s toThread).setStat toThread .running

/-- `rt_schedule` (`scheduler.c:399-499`). -/
def rtSchedule (s : State T) : Option (State T) :=
  if s.lockNest = 0 ∧ s.bits.group ≠ 0 then
    (getHighestPriorityThread prioMax s).bind fun (toThread, highest) =>
      s.currentThread.map fun current =>
        let (toThread, needInsert) := chooseThread s current toThread highest
        if toThread ≠ current then switchTo prioMax s current toThread needInsert
        else (rtScheduleRemoveThread prioMax s current).setStat current .running
  else some s

/-- `rt_enter_critical` (`scheduler.c:819-834`); the counter is an `rt_int16_t`. -/
def rtEnterCritical (s : State T) : State T :=
  { s with lockNest := Int.bmod (s.lockNest + 1) (2 ^ 16) }

/-- `rt_exit_critical` (`scheduler.c:879-904`). -/
def rtExitCritical (s : State T) : Option (State T) :=
  let nest := Int.bmod (s.lockNest - 1) (2 ^ 16)
  if nest ≤ 0 then
    let s := { s with lockNest := 0 }
    if s.currentThread.isSome then rtSchedule prioMax s else some s
  else some { s with lockNest := nest }

/-- `rt_thread_resume` (`thread.c:704-738`). -/
def rtThreadResume (s : State T) (t : T) : State T × RtErr :=
  if (s.thread t).stat ≠ .suspend then (s, .error)
  else (rtScheduleInsertThread prioMax
    ((rtListRemove s t).setThread t fun th => { th with threadTimer := false }) t, .eok)

/-- `rt_thread_startup` (`thread.c:286-318`). -/
def rtThreadStartup (s : State T) (t : T) : Option (State T) :=
  if (s.thread t).stat ≠ .init then none
  else
    let s := s.setThread t fun th => { th with
      currentPriority := th.initPriority
      masks := masksOf prioMax th.initPriority
      stat := .suspend }
    let s := (rtThreadResume prioMax s t).1
    if s.currentThread.isSome then rtSchedule prioMax s else some s

/-- `rt_thread_suspend` (`thread.c:655-694`). -/
def rtThreadSuspend (s : State T) (t : T) : Option (State T × RtErr) :=
  if (s.thread t).stat ≠ .ready ∧ (s.thread t).stat ≠ .running then some (s, .error)
  else if (s.thread t).stat = .running ∧ s.currentThread ≠ some t then none
  else some ((rtScheduleRemoveThread prioMax s t).setThread t
    fun th => { th with stat := .suspend, threadTimer := false }, .eok)

/-- `rt_thread_yield` (`thread.c:470-475`). -/
def rtThreadYield (s : State T) : Option (State T) := rtSchedule prioMax s

omit prioMax in
/-- `rt_timer_start` on the built-in timer of a thread: in `rt_thread_sleep`, and in the IPC
functions after they have suspended a thread with a waiting time. -/
def rtTimerStart (s : State T) (t : T) : State T :=
  s.setThread t fun th => { th with threadTimer := true }

/-- `rt_thread_sleep` up to the switch to another thread (`thread.c:485-508`). -/
def rtThreadSleep (s : State T) : Option (State T) :=
  s.currentThread.bind fun t =>
    (rtThreadSuspend prioMax s t).bind fun r => rtSchedule prioMax (rtTimerStart r.1 t)

/-- The end of `rt_thread_sleep`, when the thread runs again (`thread.c:510-515`). -/
def rtThreadSleepReturn (s : State T) : Option (State T) :=
  s.currentThread.map fun t =>
    if (s.thread t).error = .etimeout then s.setThread t fun th => { th with error := .eok } else s

/-- `rt_thread_control` with `RT_THREAD_CTRL_CHANGE_PRIORITY` (`thread.c:570-611`). -/
def rtThreadControl (s : State T) (t : T) (priority : ℕ) : State T :=
  let change (th : Thread) : Thread :=
    { th with currentPriority := priority, masks := masksOf prioMax priority }
  if (s.thread t).stat = .ready then
    rtScheduleInsertThread prioMax ((rtScheduleRemoveThread prioMax s t).setThread t change) t
  else s.setThread t change

/-- A thread that is not in state `RT_THREAD_INIT` leaves the scheduler; its timer is
detached and it is closed (`thread.c:338-348`, `thread.c:437-447`). -/
def closeThread (s : State T) (t : T) : State T :=
  let s := if (s.thread t).stat ≠ .init then rtScheduleRemoveThread prioMax s t else s
  s.setThread t fun th => { th with stat := .close, threadTimer := false }

omit [DecidableEq T] in
def insertDefunct (s : State T) (t : T) : State T := { s with defunct := t :: s.defunct }

/-- `rt_thread_detach` (`thread.c:329-366`). -/
def rtThreadDetach (s : State T) (t : T) : Option (State T) :=
  if (s.thread t).isSystem = true then
    let s := closeThread prioMax s t
    if (s.thread t).cleanup = true then some (insertDefunct s t) else some s
  else none

/-- `rt_thread_delete` (`thread.c:428-459`). -/
def rtThreadDelete (s : State T) (t : T) : Option (State T) :=
  if (s.thread t).isSystem = true then none else some (insertDefunct (closeThread prioMax s t) t)

/-- `rt_thread_exit` (`thread.c:80-115`). -/
def rtThreadExit (s : State T) : Option (State T) :=
  s.currentThread.bind fun t =>
    let s := (rtScheduleRemoveThread prioMax s t).setThread t
      fun th => { th with stat := .close, threadTimer := false }
    rtSchedule prioMax
      (if (s.thread t).isSystem = true ∧ (s.thread t).cleanup = false then s else insertDefunct s t)

/-- `rt_thread_timeout` (`thread.c:747-769`), called by the expiry of the one-shot timer. -/
def rtThreadTimeout (s : State T) (t : T) : Option (State T) :=
  if (s.thread t).stat = .suspend then
    rtSchedule prioMax (rtScheduleInsertThread prioMax ((rtListRemove s t).setThread t
      fun th => { th with error := .etimeout, threadTimer := false }) t)
  else none

inductive Act (T : Type*) where
  | start
  | startup (t : T)
  | suspend (t : T)
  | resume (t : T)
  | yield
  | sleep
  | sleepReturn
  | timerStart (t : T)
  | control (t : T) (priority : ℕ)
  | delete (t : T)
  | detach (t : T)
  | exit
  | timeout (t : T)
  | schedule
  | enterCritical
  | exitCritical

/-- One call. The scheduler is started once, priorities are below `RT_THREAD_PRIORITY_MAX`,
and only an activated timer expires. A wait for an IPC object is a suspend, a start of the
timer and a schedule. -/
def step (s : State T) : Act T → Option (State T)
  | .start => if s.currentThread.isNone then rtSystemSchedulerStart prioMax s else none
  | .startup t => rtThreadStartup prioMax s t
  | .suspend t => (rtThreadSuspend prioMax s t).map Prod.fst
  | .resume t => some (rtThreadResume prioMax s t).1
  | .yield => rtThreadYield prioMax s
  | .sleep => rtThreadSleep prioMax s
  | .sleepReturn => rtThreadSleepReturn s
  | .timerStart t => some (rtTimerStart s t)
  | .control t priority => if priority < prioMax then some (rtThreadControl prioMax s t priority) else none
  | .delete t => rtThreadDelete prioMax s t
  | .detach t => rtThreadDetach prioMax s t
  | .exit => rtThreadExit prioMax s
  | .timeout t => if (s.thread t).threadTimer = true then rtThreadTimeout prioMax s t else none
  | .schedule => rtSchedule prioMax s
  | .enterCritical => some (rtEnterCritical s)
  | .exitCritical => rtExitCritical prioMax s

end RtThread.Sched.Scheduler
