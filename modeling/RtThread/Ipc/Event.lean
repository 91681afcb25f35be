import RtThread.Lib.Transition
import RtThread.Ipc.Base

/-!
# Events (`ipc.c:903-1236`)

An event is a set of 32 flags. A receiver names the flags it wants and whether it needs all
of them or one of them; a send walks the list of the waiting receivers from its front and
makes those ready whose condition holds, and a receiver with `RT_EVENT_FLAG_CLEAR` takes its
flags out of the set before the next one is examined.
-/

namespace RtThread.Ipc.Event

open RtThread.Lib.Transition RtThread.Ipc.Base

/- `RT_EVENT_FLAG_AND`, `RT_EVENT_FLAG_OR`, `RT_EVENT_FLAG_CLEAR` (`rtdef.h:686-688`) -/
def flagAnd : BitVec 8 := 0x01
def flagOr : BitVec 8 := 0x02
def flagClear : BitVec 8 := 0x04

structure RtEvent (T : Type*) where
  set : BitVec 32
  suspendThread : List T
  flag : IpcFlag

/-- `eventSet` and `eventInfo` are the fields of the threads (`rtdef.h:591-592`). -/
structure State (T : Type*) where
  event : RtEvent T
  thread : T → Thread
  eventSet : T → BitVec 32
  eventInfo : T → BitVec 8

/-- The condition of a receiver, as `rt_event_recv` checks it (`ipc.c:1161-1176`). -/
def satisfied (option : BitVec 8) (want set : BitVec 32) : Prop :=
  if option &&& flagAnd ≠ 0 then set &&& want = want
  else if option &&& flagOr ≠ 0 then set &&& want ≠ 0
  else False

instance (option : BitVec 8) (want set : BitVec 32) : Decidable (satisfied option want set) :=
  inferInstanceAs (Decidable (if option &&& flagAnd ≠ 0 then _ else if option &&& flagOr ≠ 0 then _ else False))

variable {T : Type*}

/-- `rt_event_init` (`ipc.c:914-932`). -/
def rtEventInit (flag : IpcFlag) (thread : T → Thread) (eventSet : T → BitVec 32)
    (eventInfo : T → BitVec 8) : State T := ⟨⟨0, [], flag⟩, thread, eventSet, eventInfo⟩

/-- A receiver made ready by a send: what it asked for, the set when it was examined, and the
flags left in `thread->event_set` for it. -/
structure Wake (T : Type*) where
  thread : T
  option : BitVec 8
  want : BitVec 32
  set : BitVec 32
  recved : BitVec 32

variable [DecidableEq T]

/-- The condition of a waiting thread in the loop of `rt_event_send` (`ipc.c:1062-1086`); an OR
receiver gets its flags that are set. -/
def examine (s : State T) (t : T) : State T × Bool :=
  if s.eventInfo t &&& flagAnd ≠ 0 then
    (s, decide (s.eventSet t &&& s.event.set = s.eventSet t))
  else if s.eventInfo t &&& flagOr ≠ 0 then
    if s.eventSet t &&& s.event.set ≠ 0 then
      ({ s with eventSet := Function.update s.eventSet t (s.eventSet t &&& s.event.set) }, true)
    else (s, false)
  else (s, false)

/-- The flags are cleared and the thread is resumed (`ipc.c:1092-1103`). -/
def resume (s : State T) (t : T) : State T :=
  { s with
    event := { s.event with
      set := if s.eventInfo t &&& flagClear ≠ 0 then s.event.set &&& ~~~s.eventSet t else s.event.set
      suspendThread := s.event.suspendThread.erase t }
    thread := Function.update s.thread t (s.thread t).resume }

/-- The loop of `rt_event_send` over the rest of the suspend list; the next node is read before
the thread is taken off the list. The wakes are history. -/
def sendLoop : List T → State T → State T × List (Wake T)
  | [], s => (s, [])
  | t :: rest, s =>
    if (examine s t).2 then
      let s' := (examine s t).1
      let r := sendLoop rest (resume s' t)
      (r.1, ⟨t, s.eventInfo t, s.eventSet t, s.event.set, s'.eventSet t⟩ :: r.2)
    else sendLoop rest (examine s t).1

/-- `rt_event_send` (`ipc.c:1028-1110`). -/
def rtEventSend (s : State T) (set : BitVec 32) : State T × List (Wake T) :=
  if set = 0 then (s, [])
  else
    let s' : State T := { s with event := { s.event with set := s.event.set ||| set } }
    sendLoop s'.event.suspendThread s'

/-- How the first section of `rt_event_recv` ends. -/
inductive Outcome where
  | failed (e : RtErr)
  | received (flags : BitVec 32)
  | suspended

/-- `rt_event_recv` up to `rt_schedule` (`ipc.c:1126-1214`); an option without AND and OR fails
the assertion. -/
def rtEventRecv (s : State T) (t : T) (set : BitVec 32) (option : BitVec 8) (timeout : ℤ) :
    Option (State T × Outcome) :=
  if set = 0 then some (s, .failed .error)
  else if option &&& flagAnd = 0 ∧ option &&& flagOr = 0 then none
  else
    let s : State T := { s with thread := Function.update s.thread t { s.thread t with error := .eok } }
    if satisfied option set s.event.set then
      some ({ s with event := { s.event with
          set := if option &&& flagClear ≠ 0 then s.event.set &&& ~~~set else s.event.set } },
        .received (s.event.set &&& set))
    else if timeout = 0 then
      some ({ s with thread := Function.update s.thread t { s.thread t with error := .etimeout } },
        .failed .etimeout)
    else
      some ({ s with
          eventSet := Function.update s.eventSet t set
          eventInfo := Function.update s.eventInfo t option
          event := { s.event with
            suspendThread := rtIpcListSuspend s.event.flag (fun u => (s.thread u).currentPriority)
              s.event.suspendThread t }
          thread := Function.update s.thread t ((s.thread t).suspend timeout) },
        .suspended)

/-- `rt_event_recv` after `rt_schedule` (`ipc.c:1216-1235`): an error, or the flags of the thread. -/
def rtEventRecvReturn (s : State T) (t : T) : Outcome :=
  if (s.thread t).error ≠ .eok then .failed (s.thread t).error else .received (s.eventSet t)

/-- `rt_thread_timeout` (`thread.c:747-769`). -/
def rtThreadTimeout (s : State T) (t : T) : State T :=
  { s with
    event := { s.event with suspendThread := s.event.suspendThread.erase t }
    thread := Function.update s.thread t (s.thread t).timeout }

end RtThread.Ipc.Event
