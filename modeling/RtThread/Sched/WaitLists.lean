import RtThread.Lib.Word
import RtThread.Sched.Dispatch

/-!
# Threads, mutexes and the suspend lists of IPC objects (`ipc.c:79-880`, `thread.c`, `scheduler.c`)

The scheduler with mutexes and the suspend lists of any other IPC objects, for one CPU without signals. A step is
a section of an IPC function that the running thread executes, with the call of `rt_schedule` that it ends in, or
a call of the scheduler. An IPC function that wakes threads is several steps: it resumes them and schedules.
-/

namespace RtThread.Sched.WaitLists

open RtThread.Ipc.Base (IpcFlag RtErr rtIpcListSuspend)
open RtThread.Lib.Transition RtThread.Lib.Word RtThread.Sched.Scheduler

/-- `struct rt_ipc_object`: the flag and the suspend list. -/
structure IpcObject (T : Type*) where
  flag : IpcFlag
  suspendThread : List T

/-- `struct rt_mutex` without its parent. -/
structure RtMutex (T : Type*) where
  value : ℕ
  originalPriority : ℕ
  hold : ℕ
  owner : Option T

/-- The parents of the mutexes are among the objects. The node `tlist` of a thread is in the suspend list `place`,
which the thread has joined at the time `arrived`. -/
structure Kernel (T M O : Type*) where
  sched : State T
  mutex : M → RtMutex T
  object : M ⊕ O → IpcObject T
  place : T → Option (M ⊕ O)
  arrived : T → ℕ
  now : ℕ

variable {T M O : Type*}

/-- `rt_mutex_init` (`ipc.c:529-549`). -/
def rtMutexInit : RtMutex T := ⟨1, 0xff, 0, none⟩

/-- Before the scheduler is started. -/
def initial (thread : T → Thread) (flag : M ⊕ O → IpcFlag) : Kernel T M O :=
  ⟨rtSystemSchedulerInit thread, fun _ => rtMutexInit, fun o => ⟨flag o, []⟩, fun _ => none, fun _ => 0, 0⟩

def Kernel.prio (k : Kernel T M O) (t : T) : ℕ := (k.sched.thread t).currentPriority

variable [DecidableEq T]

def setError (s : State T) (t : T) (e : RtErr) : State T := s.setThread t fun th => { th with error := e }

/-- `rt_list_remove` on the node of a thread that waits. -/
def unlist (k : Kernel T M O) (t : T) : Kernel T M O :=
  { k with
    object := fun o => { k.object o with suspendThread := (k.object o).suspendThread.erase t }
    place := Function.update k.place t none }

variable [DecidableEq M] [DecidableEq O] (prioMax : ℕ)

/-- `rt_ipc_list_suspend`, the start of the timer and the call of `rt_schedule`. The node of the thread must not be
in another list, as it is when the thread has suspended itself for an object while the scheduler was locked, or is
defunct. -/
def suspend (k : Kernel T M O) (o : M ⊕ O) (thread : T) (time : ℤ) : Option (Kernel T M O) :=
  if (k.place thread).isSome ∨ (k.sched.thread thread).stat ∉ [.running, .suspend] then none
  else
    (rtThreadSuspend prioMax k.sched thread).bind fun r =>
      let object := k.object o
      let list := rtIpcListSuspend object.flag k.prio object.suspendThread thread
      let sched := if 0 < time then rtTimerStart r.1 thread else r.1
      (rtSchedule prioMax sched).map fun sched =>
        { k with
          sched := sched
          object := Function.update k.object o { object with suspendThread := list }
          place := Function.update k.place thread (some o)
          arrived := Function.update k.arrived thread k.now
          now := k.now + 1 }

omit [DecidableEq M] [DecidableEq O] in
/-- `rt_thread_resume` of a thread that may wait for an object. -/
def resume (k : Kernel T M O) (t : T) : Kernel T M O :=
  if (k.sched.thread t).stat = .suspend then { unlist k t with sched := (rtThreadResume prioMax k.sched t).1 } else k

/-- `rt_mutex_take` up to the switch to another thread (`ipc.c:653-749`). -/
def rtMutexTake (k : Kernel T M O) (m : M) (time : ℤ) : Option (Kernel T M O) :=
  k.sched.currentThread.bind fun thread =>
    let sched := setError k.sched thread .eok
    let mutex := k.mutex m
    if mutex.owner = some thread then
      some { k with sched := sched, mutex := Function.update k.mutex m { mutex with hold := inc 8 mutex.hold } }
    else if 0 < mutex.value then
      some { k with
        sched := sched
        mutex := Function.update k.mutex m
          ⟨dec 16 mutex.value, k.prio thread, inc 8 mutex.hold, some thread⟩ }
    else if time = 0 then
      some { k with sched := setError sched thread .etimeout }
    else
      mutex.owner.bind fun owner =>
        let sched := if k.prio thread < k.prio owner then rtThreadControl prioMax sched owner (k.prio thread) else sched
        suspend prioMax { k with sched := sched } (.inl m) thread time

/-- `rt_mutex_release` (`ipc.c:789-880`). -/
def rtMutexRelease (k : Kernel T M O) (m : M) : Option (Kernel T M O × RtErr) :=
  k.sched.currentThread.bind fun thread =>
    let mutex := k.mutex m
    if mutex.owner ≠ some thread then
      some ({ k with sched := setError k.sched thread .error }, .error)
    else
      let hold := dec 8 mutex.hold
      if hold ≠ 0 then some ({ k with mutex := Function.update k.mutex m { mutex with hold := hold } }, .eok)
      else
        let sched :=
          if mutex.originalPriority ≠ k.prio thread then rtThreadControl prioMax k.sched thread mutex.originalPriority
          else k.sched
        match (k.object (.inl m)).suspendThread with
        | waiter :: _ =>
          let k := resume prioMax { k with
            sched := sched
            mutex := Function.update k.mutex m
              ⟨mutex.value, (sched.thread waiter).currentPriority, inc 8 hold, some waiter⟩ } waiter
          (rtSchedule prioMax k.sched).map fun sched => ({ k with sched := sched }, .eok)
        | [] =>
          some ({ k with
            sched := sched
            mutex := Function.update k.mutex m ⟨inc 16 mutex.value, 0xff, hold, none⟩ }, .eok)

omit [DecidableEq M] [DecidableEq O] in
/-- `rt_ipc_list_resume` (`ipc.c:133-146`). -/
def rtIpcListResume (k : Kernel T M O) (o : M ⊕ O) : Option (Kernel T M O) :=
  (k.object o).suspendThread.head?.map fun thread => resume prioMax k thread

omit [DecidableEq M] [DecidableEq O] in
/-- One thread of `rt_ipc_list_resume_all` (`ipc.c:157-186`). -/
def rtIpcListResumeAll (k : Kernel T M O) (o : M ⊕ O) : Option (Kernel T M O) :=
  (k.object o).suspendThread.head?.map fun thread =>
    resume prioMax { k with sched := setError k.sched thread .error } thread

inductive Act (T M O : Type*) where
  | call (a : Scheduler.Act T)
  | mutexTake (m : M) (time : ℤ)
  | mutexRelease (m : M)
  | ipcSuspend (o : O) (time : ℤ)
  | ipcResume (o : O)
  | ipcResumeAll (o : O)

omit [DecidableEq T] in
/-- The thread that a call of the scheduler takes out of the suspend list it is in. -/
def unlisted (s : State T) : Scheduler.Act T → Option T
  | .resume t => if (s.thread t).stat = .suspend then some t else none
  | .timeout t => some t
  | .delete t => some t
  | .detach t => some t
  | .exit => s.currentThread
  | _ => none

omit [DecidableEq M] [DecidableEq O] in
def call (k : Kernel T M O) (a : Scheduler.Act T) : Option (Kernel T M O) :=
  (Scheduler.step prioMax k.sched a).map fun sched =>
    match unlisted k.sched a with
    | some t => { unlist k t with sched := sched }
    | none => { k with sched := sched }

def step (k : Kernel T M O) : Act T M O → Option (Kernel T M O)
  | .call a => call prioMax k a
  | .mutexTake m time => rtMutexTake prioMax k m time
  | .mutexRelease m => (rtMutexRelease prioMax k m).map Prod.fst
  | .ipcSuspend o time => k.sched.currentThread.bind fun thread =>
      suspend prioMax { k with sched := setError k.sched thread .eok } (.inr o) thread time
  | .ipcResume o => rtIpcListResume prioMax k (.inr o)
  | .ipcResumeAll o => rtIpcListResumeAll prioMax k (.inr o)

/-! ### The ready lists -/

section Ready

/-- The ready lists are right, and the priority that an owner gets back is one. -/
structure Ready (k : Kernel T M O) : Prop where
  sched : Inv prioMax k.sched
  restores : ∀ m, (k.mutex m).owner ≠ none → (k.mutex m).originalPriority < prioMax

variable {prioMax} {k k' : Kernel T M O} {t : T}

omit [DecidableEq M] [DecidableEq O] in
theorem setError_inv {s : State T} (h : Inv prioMax s) (e : RtErr) : Inv prioMax (setError s t e) :=
  h.keep fun _ => ⟨rfl, rfl, rfl, rfl⟩

omit [DecidableEq T] [DecidableEq M] [DecidableEq O] in
theorem Ready.setSched (h : Ready prioMax k) {s : State T} (hs : Inv prioMax s) : Ready prioMax { k with sched := s } :=
  ⟨hs, h.restores⟩

omit [DecidableEq T] [DecidableEq O] in
theorem Ready.setMutex (h : Ready prioMax k) {m : M} {x : RtMutex T} {s : State T} (hs : Inv prioMax s)
    (hx : x.owner ≠ none → x.originalPriority < prioMax) :
    Ready prioMax { k with sched := s, mutex := Function.update k.mutex m x } := by
  refine ⟨hs, fun n hn => ?_⟩
  by_cases hnm : n = m
  · subst hnm
    simp only [Function.update_self] at hn ⊢
    exact hx hn
  · simp only [Function.update_of_ne hnm] at hn ⊢
    exact h.restores n hn

variable (hmax : prioMax ≤ 256)

include hmax

theorem suspend_ready {o : M ⊕ O} {time : ℤ} (h : Ready prioMax k) (hs : suspend prioMax k o t time = some k') :
    Ready prioMax k' := by
  simp only [suspend, Option.ite_none_left_eq_some, Option.bind_eq_some_iff, Option.map_eq_some_iff] at hs
  obtain ⟨-, r, hr, s, hsched, rfl⟩ := hs
  have hinv := rtThreadSuspend_inv hmax h.sched hr
  refine ⟨rtSchedule_inv hmax ?_ hsched, h.restores⟩
  split
  · exact rtTimerStart_inv hinv
  · exact hinv

omit hmax [DecidableEq M] [DecidableEq O] in
theorem resume_sched (prioMax : ℕ) (k : Kernel T M O) (t : T) :
    (resume prioMax k t).sched = (rtThreadResume prioMax k.sched t).1 := by
  unfold resume rtThreadResume
  by_cases hstat : (k.sched.thread t).stat = .suspend
  · rw [if_pos hstat, if_neg (not_not.mpr hstat)]
  · rw [if_neg hstat, if_pos hstat]

omit hmax [DecidableEq M] [DecidableEq O] in
theorem resume_mutex (prioMax : ℕ) (k : Kernel T M O) (t : T) : (resume prioMax k t).mutex = k.mutex := by
  unfold resume
  split <;> rfl

omit [DecidableEq M] [DecidableEq O] in
theorem resume_ready (h : Ready prioMax k) : Ready prioMax (resume prioMax k t) := by
  refine ⟨?_, fun m hm => ?_⟩
  · rw [resume_sched]
    exact rtThreadResume_inv hmax h.sched
  · rw [resume_mutex] at hm ⊢
    exact h.restores m hm

omit [DecidableEq M] [DecidableEq O] in
theorem restore_inv {m : M} (h : Ready prioMax k) (howned : (k.mutex m).owner ≠ none) :
    Inv prioMax (if (k.mutex m).originalPriority ≠ k.prio t then
      rtThreadControl prioMax k.sched t (k.mutex m).originalPriority else k.sched) := by
  split
  · exact rtThreadControl_inv hmax h.sched (h.restores m howned)
  · exact h.sched

omit [DecidableEq M] [DecidableEq O] in
theorem boost_inv (h : Ready prioMax k) (thread owner : T) :
    Inv prioMax (if k.prio thread < k.prio owner then
      rtThreadControl prioMax (setError k.sched thread .eok) owner (k.prio thread) else setError k.sched thread .eok) := by
  split
  · exact rtThreadControl_inv hmax (setError_inv h.sched .eok) (h.sched.lists.prio thread nofun)
  · exact setError_inv h.sched .eok

theorem rtMutexTake_ready {m : M} {time : ℤ} (h : Ready prioMax k) (hs : rtMutexTake prioMax k m time = some k') :
    Ready prioMax k' := by
  obtain ⟨thread, -, hs⟩ := Option.bind_eq_some_iff.mp hs
  have hclear : Inv prioMax (setError k.sched thread .eok) := setError_inv h.sched .eok
  simp only at hs
  split at hs
  · cases hs
    exact h.setMutex hclear fun ho => h.restores m ho
  · split at hs
    · cases hs
      exact h.setMutex hclear fun _ => h.sched.lists.prio thread nofun
    · split at hs
      · cases hs
        exact h.setSched (setError_inv hclear .etimeout)
      · obtain ⟨owner, -, hs⟩ := Option.bind_eq_some_iff.mp hs
        exact suspend_ready hmax (h.setSched (boost_inv hmax h thread owner)) hs

omit [DecidableEq O] in
theorem rtMutexRelease_ready {m : M} {r : Kernel T M O × RtErr} (h : Ready prioMax k)
    (hs : rtMutexRelease prioMax k m = some r) : Ready prioMax r.1 := by
  obtain ⟨thread, -, hs⟩ := Option.bind_eq_some_iff.mp hs
  simp only at hs
  split at hs
  · cases hs
    exact h.setSched (setError_inv h.sched .error)
  · rename_i howner
    have howned : (k.mutex m).owner ≠ none := by
      rw [not_not.mp howner]
      exact Option.some_ne_none thread
    split at hs
    · cases hs
      exact h.setMutex h.sched fun _ => h.restores m howned
    · have hrestored := @restore_inv T M O _ prioMax k thread hmax m h howned
      split at hs
      · obtain ⟨s, hsched, rfl⟩ := Option.map_eq_some_iff.mp hs
        refine Ready.setSched (resume_ready hmax (h.setMutex hrestored fun _ => ?_)) ?_
        · exact hrestored.lists.prio _ nofun
        · refine rtSchedule_inv hmax (resume_ready hmax (h.setMutex hrestored fun _ => ?_)).sched hsched
          exact hrestored.lists.prio _ nofun
      · cases hs
        exact h.setMutex hrestored fun ho => absurd rfl ho

theorem step_ready {a : Act T M O} (h : Ready prioMax k) (hs : step prioMax k a = some k') : Ready prioMax k' := by
  cases a with
  | call a =>
    obtain ⟨s, hsched, rfl⟩ := Option.map_eq_some_iff.mp hs
    have hinv := Scheduler.step_inv hmax h.sched hsched
    split <;> exact ⟨hinv, h.restores⟩
  | mutexTake m time => exact rtMutexTake_ready hmax h hs
  | mutexRelease m =>
    obtain ⟨r, hr, rfl⟩ := Option.map_eq_some_iff.mp hs
    exact rtMutexRelease_ready hmax h hr
  | ipcSuspend o time =>
    obtain ⟨thread, -, hs⟩ := Option.bind_eq_some_iff.mp hs
    exact suspend_ready hmax (h.setSched (setError_inv h.sched .eok)) hs
  | ipcResume o =>
    obtain ⟨thread, -, rfl⟩ := Option.map_eq_some_iff.mp hs
    exact resume_ready hmax h
  | ipcResumeAll o =>
    obtain ⟨thread, -, rfl⟩ := Option.map_eq_some_iff.mp hs
    exact resume_ready hmax (h.setSched (setError_inv h.sched .error))

theorem run_ready {thread : T → Thread} {flag : M ⊕ O → IpcFlag} {acts : List (Act T M O)}
    (hthread : ∀ t, ∃ p isSystem cleanup, p < prioMax ∧ thread t = rtThreadInit p isSystem cleanup)
    (hrun : exec (step prioMax) (initial thread flag) acts = some k) : Ready prioMax k :=
  exec_inv (Ready prioMax) (fun _ _ _ h hs => step_ready hmax h hs) ⟨init_inv hthread, fun _ h => absurd rfl h⟩ hrun

end Ready

end RtThread.Sched.WaitLists
