import RtThread.Lib.Transition
import RtThread.Lib.Word
import RtThread.Ipc.Calls

/-!
# Mutexes (`ipc.c:529-880`)

Any number of threads on any number of mutexes. The functions below follow the C
functions section by section on the kernel data (`State`); `Sys` adds the history of
the calls, and `step` is one section of one thread or the expiry of a waiter's timer.
`Effect` lists everything a step can do; the invariants are proved from that list.
-/

namespace RtThread.Ipc.Mutex

open RtThread.Lib.Word RtThread.Ipc.Base RtThread.Ipc.Calls

/-- `struct rt_mutex` (`rtdef.h:668-678`); `value` is an `rt_uint16_t`, `hold` and
`original_priority` are `rt_uint8_t`. -/
structure RtMutex (T : Type*) where
  value : ℕ
  originalPriority : ℕ
  hold : ℕ
  owner : Option T
  suspendThread : List T
  flag : IpcFlag

structure State (T M : Type*) where
  mutex : M → RtMutex T
  thread : T → Thread

variable {T M : Type*} [DecidableEq T] [DecidableEq M]

def State.setMutex (s : State T M) (m : M) (x : RtMutex T) : State T M :=
  { s with mutex := Function.update s.mutex m x }

def State.setThread (s : State T M) (t : T) (f : Thread → Thread) : State T M :=
  { s with thread := Function.update s.thread t (f (s.thread t)) }

def State.prio (s : State T M) (t : T) : ℕ := (s.thread t).currentPriority

/-- `rt_mutex_init` (`ipc.c:529-549`). -/
def rtMutexInit (flag : IpcFlag) : RtMutex T := ⟨1, 0xff, 0, none, [], flag⟩

/-- `rt_thread_control` with `RT_THREAD_CTRL_CHANGE_PRIORITY` (`thread.c:570-611`). The
suspend list that the thread may be in is left as it is. -/
def rtThreadControl (s : State T M) (t : T) (priority : ℕ) : State T M :=
  s.setThread t fun th => { th with currentPriority := priority }

/-- How a section of `rt_mutex_take` ends. -/
inductive Taken where
  | granted
  | refused (e : RtErr)
  | suspended

/-- The owner's priority is raised to that of a more urgent thread that is about to
wait (`ipc.c:721-727`). -/
def inherit (s : State T M) (owner t : T) : State T M :=
  if s.prio t < s.prio owner then rtThreadControl s owner (s.prio t) else s

/-- `rt_mutex_take` from the label `__again` to the call of `rt_schedule`
(`ipc.c:687-749`). An unavailable mutex without an owner would be dereferenced. -/
def rtMutexTakeAgain (s : State T M) (t : T) (m : M) (time : ℤ) : Option (State T M × Taken) :=
  let mx := s.mutex m
  if 0 < mx.value then
    some (s.setMutex m { mx with value := dec 16 mx.value, owner := some t,
                                 originalPriority := s.prio t, hold := inc 8 mx.hold }, .granted)
  else if time = 0 then
    some (s.setThread t fun th => { th with error := .etimeout }, .refused .etimeout)
  else
    match mx.owner with
    | none => none
    | some o =>
      let s := inherit s o t
      some ((s.setMutex m { mx with
        suspendThread := rtIpcListSuspend mx.flag s.prio mx.suspendThread t }).setThread t
          fun th => th.suspend time, .suspended)

/-- `rt_mutex_take` up to the call of `rt_schedule` (`ipc.c:653-749`). -/
def rtMutexTake (s : State T M) (t : T) (m : M) (time : ℤ) : Option (State T M × Taken) :=
  let s := s.setThread t fun th => { th with error := .eok }
  let mx := s.mutex m
  if mx.owner = some t then
    some (s.setMutex m { mx with hold := inc 8 mx.hold }, .granted)
  else
    rtMutexTakeAgain s t m time

/-- How `rt_mutex_release` ends: refused, still held, free again, or handed over. -/
inductive Released (T : Type*) where
  | refused
  | nested
  | freed
  | handed (w : T)

/-- The owner gets back the priority it had when it acquired the mutex
(`ipc.c:833-838`). -/
def restore (s : State T M) (t : T) (priority : ℕ) : State T M :=
  if priority ≠ s.prio t then rtThreadControl s t priority else s

/-- `rt_mutex_release` (`ipc.c:789-880`). -/
def rtMutexRelease (s : State T M) (t : T) (m : M) : State T M × Released T :=
  let mx := s.mutex m
  if mx.owner ≠ some t then
    (s.setThread t fun th => { th with error := .error }, .refused)
  else if dec 8 mx.hold ≠ 0 then
    (s.setMutex m { mx with hold := dec 8 mx.hold }, .nested)
  else
    let s := restore s t mx.originalPriority
    match mx.suspendThread with
    | w :: rest =>
      ((s.setMutex m { mx with owner := some w, originalPriority := s.prio w,
                               hold := inc 8 (dec 8 mx.hold), suspendThread := rest }).setThread w
        Thread.resume, .handed w)
    | [] =>
      (s.setMutex m { mx with value := inc 16 mx.value, owner := none, originalPriority := 0xff,
                              hold := dec 8 mx.hold }, .freed)

/-- `rt_thread_timeout` (`thread.c:747-769`): the thread leaves the list it is in. -/
def rtThreadTimeout (s : State T M) (t : T) : State T M :=
  { s with mutex := fun m => { s.mutex m with suspendThread := (s.mutex m).suspendThread.erase t } }.setThread
    t Thread.timeout

/-! ### Reading the state after an update -/

omit [DecidableEq T] in
@[simp] theorem setMutex_thread (s : State T M) (m : M) (x : RtMutex T) :
    (s.setMutex m x).thread = s.thread := rfl

omit [DecidableEq T] in
@[simp] theorem setMutex_self (s : State T M) (m : M) (x : RtMutex T) :
    (s.setMutex m x).mutex m = x := Function.update_self ..

omit [DecidableEq T] in
@[simp] theorem setMutex_of_ne (s : State T M) {m n : M} (h : n ≠ m) (x : RtMutex T) :
    (s.setMutex m x).mutex n = s.mutex n := Function.update_of_ne h ..

omit [DecidableEq T] in
@[simp] theorem setMutex_prio (s : State T M) (m : M) (x : RtMutex T) :
    (s.setMutex m x).prio = s.prio := rfl

omit [DecidableEq T] in
theorem setMutex_keeps {β : Type*} (field : RtMutex T → β) (s : State T M) (m : M) (x : RtMutex T)
    (h : field x = field (s.mutex m)) (n : M) : field ((s.setMutex m x).mutex n) = field (s.mutex n) := by
  by_cases hn : n = m
  · rw [hn, setMutex_self, h]
  · rw [setMutex_of_ne s hn]

omit [DecidableEq M] in
@[simp] theorem setThread_mutex (s : State T M) (t : T) (f : Thread → Thread) :
    (s.setThread t f).mutex = s.mutex := rfl

omit [DecidableEq M] in
@[simp] theorem setThread_self (s : State T M) (t : T) (f : Thread → Thread) :
    (s.setThread t f).thread t = f (s.thread t) := Function.update_self ..

omit [DecidableEq M] in
@[simp] theorem setThread_of_ne (s : State T M) {t u : T} (h : u ≠ t) (f : Thread → Thread) :
    (s.setThread t f).thread u = s.thread u := Function.update_of_ne h ..

omit [DecidableEq M] in
theorem setThread_keeps {β : Type*} (field : Thread → β) (s : State T M) (t : T) (f : Thread → Thread)
    (h : ∀ th, field (f th) = field th) (u : T) :
    field ((s.setThread t f).thread u) = field (s.thread u) := by
  by_cases hut : u = t
  · rw [hut, setThread_self, h]
  · rw [setThread_of_ne s hut]

omit [DecidableEq M] in
theorem setThread_prio (s : State T M) (t : T) (f : Thread → Thread)
    (h : ∀ th, (f th).currentPriority = th.currentPriority) : (s.setThread t f).prio = s.prio :=
  funext fun u => setThread_keeps Thread.currentPriority s t f h u

omit [DecidableEq M] in
theorem setError_prio (s : State T M) (t : T) (e : RtErr) :
    (s.setThread t fun th => { th with error := e }).prio = s.prio :=
  setThread_prio s t _ fun _ => rfl

omit [DecidableEq M] in
theorem rtThreadControl_prio (s : State T M) (t : T) (p : ℕ) :
    (rtThreadControl s t p).prio = Function.update s.prio t p := by
  funext u
  by_cases hut : u = t
  · simp [State.prio, rtThreadControl, hut]
  · simp [State.prio, rtThreadControl, hut]

omit [DecidableEq M] in
@[simp] theorem inherit_mutex (s : State T M) (o t : T) : (inherit s o t).mutex = s.mutex := by
  unfold inherit
  split <;> rfl

omit [DecidableEq M] in
theorem inherit_prio (s : State T M) (o t : T) :
    (inherit s o t).prio = Function.update s.prio o (min (s.prio o) (s.prio t)) := by
  unfold inherit
  split
  · rename_i h
    rw [rtThreadControl_prio, min_eq_right h.le]
  · rename_i h
    rw [min_eq_left (not_lt.mp h), Function.update_eq_self]

omit [DecidableEq M] in
theorem inherit_keeps {β : Type*} (field : Thread → β)
    (h : ∀ th p, field { th with currentPriority := p } = field th) (s : State T M) (o t u : T) :
    field ((inherit s o t).thread u) = field (s.thread u) := by
  unfold inherit
  split
  · exact setThread_keeps field s o _ (fun th => h th (s.prio t)) u
  · rfl

omit [DecidableEq M] in
@[simp] theorem restore_mutex (s : State T M) (t : T) (p : ℕ) : (restore s t p).mutex = s.mutex := by
  unfold restore
  split <;> rfl

omit [DecidableEq M] in
theorem restore_prio (s : State T M) (t : T) (p : ℕ) :
    (restore s t p).prio = Function.update s.prio t p := by
  unfold restore
  split
  · exact rtThreadControl_prio s t p
  · rename_i h
    rw [not_not.mp h, Function.update_eq_self]

omit [DecidableEq M] in
theorem restore_keeps {β : Type*} (field : Thread → β)
    (h : ∀ th p, field { th with currentPriority := p } = field th) (s : State T M) (t u : T) (p : ℕ) :
    field ((restore s t p).thread u) = field (s.thread u) := by
  unfold restore
  split
  · exact setThread_keeps field s t _ (fun th => h th p) u
  · rfl

omit [DecidableEq M] in
theorem rtThreadTimeout_prio (s : State T M) (t : T) : (rtThreadTimeout s t).prio = s.prio :=
  setThread_prio _ t _ fun _ => rfl

end RtThread.Ipc.Mutex
