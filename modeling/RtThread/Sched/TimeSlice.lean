import RtThread.Lib.Word
import RtThread.Sched.SchedulerRuns

/-!
# Time slices (`clock.c:72-98`, `scheduler.c:399-499`, `ipc.c:320-470`)

The scheduler with the time slices of the threads and with semaphores. The calls of the scheduler are
steps of their own, as any other IPC function makes them: a wait is a suspend and a schedule, and a wake
is a resume and a schedule. The timeouts that `rt_timer_check` finds at a tick follow it as calls.
-/

namespace RtThread.Sched.TimeSlice

open RtThread.Ipc.Base (IpcFlag rtIpcListSuspend)
open RtThread.Lib.Transition RtThread.Lib.Word RtThread.Sched.Bitmap RtThread.Sched.Scheduler

/-- `struct rt_semaphore` with its suspend list. -/
structure RtSemaphore (T : Type*) where
  value : ℕ
  flag : IpcFlag
  suspendThread : List T

structure Kernel (T M : Type*) where
  sched : State T
  initTick : T → ℕ
  remainingTick : T → ℕ
  sem : M → RtSemaphore T

variable {T M : Type*}

/-- Before the scheduler is started: the threads are initialized and the semaphores have no waiters. -/
def initial (thread : T → Thread) (tick : T → ℕ) (value : M → ℕ) (flag : M → IpcFlag) : Kernel T M :=
  ⟨rtSystemSchedulerInit thread, tick, tick, fun m => ⟨value m, flag m, []⟩⟩

variable [DecidableEq T]

/-- `rt_list_remove` on the node of a thread that waits for a semaphore. -/
def unlist (sem : M → RtSemaphore T) (t : T) : M → RtSemaphore T :=
  fun m => { sem m with suspendThread := (sem m).suspendThread.erase t }

variable [DecidableEq M] (prioMax : ℕ)

omit [DecidableEq M] in
/-- `rt_tick_increase` (`clock.c:72-98`) up to `rt_timer_check`. -/
def rtTickIncrease (k : Kernel T M) : Option (Kernel T M) :=
  k.sched.currentThread.bind fun thread =>
    let remaining := dec 32 (k.remainingTick thread)
    if remaining = 0 then
      (rtThreadYield prioMax k.sched).map fun sched =>
        { k with sched := sched, remainingTick := Function.update k.remainingTick thread (k.initTick thread) }
    else some { k with remainingTick := Function.update k.remainingTick thread remaining }

/-- `rt_sem_take` up to the switch to another thread (`ipc.c:320-392`). -/
def rtSemTake (k : Kernel T M) (m : M) (time : ℤ) : Option (Kernel T M) :=
  let sem := k.sem m
  if 0 < sem.value then some { k with sem := Function.update k.sem m { sem with value := sem.value - 1 } }
  else if time = 0 then some k
  else
    k.sched.currentThread.bind fun thread =>
      let sched := k.sched.setThread thread fun th => { th with error := .eok }
      (rtThreadSuspend prioMax sched thread).bind fun r =>
        let list := rtIpcListSuspend sem.flag (fun t => (sched.thread t).currentPriority) sem.suspendThread thread
        let sched := if 0 < time then rtTimerStart r.1 thread else r.1
        (rtSchedule prioMax sched).map fun sched =>
          { k with sched := sched, sem := Function.update k.sem m { sem with suspendThread := list } }

omit [DecidableEq M] in
/-- `rt_thread_resume` of a thread that may wait for a semaphore. -/
def resume (k : Kernel T M) (t : T) : Kernel T M :=
  if (k.sched.thread t).stat = .suspend then
    { k with sched := (rtThreadResume prioMax k.sched t).1, sem := unlist k.sem t }
  else k

/-- `rt_sem_release` (`ipc.c:432-470`). -/
def rtSemRelease (k : Kernel T M) (m : M) : Option (Kernel T M) :=
  match (k.sem m).suspendThread with
  | [] => some { k with sem := Function.update k.sem m { k.sem m with value := inc 16 (k.sem m).value } }
  | thread :: _ =>
    let k := resume prioMax k thread
    (rtSchedule prioMax k.sched).map fun sched => { k with sched := sched }

inductive Act (T M : Type*) where
  | call (a : Scheduler.Act T)
  | tick
  | semTake (m : M) (time : ℤ)
  | semRelease (m : M)

omit [DecidableEq M] in
/-- A call of the scheduler; a thread that is resumed, times out or is closed leaves the semaphore it
waits for. -/
def call (k : Kernel T M) (a : Scheduler.Act T) : Option (Kernel T M) :=
  match a with
  | .resume t => some (resume prioMax k t)
  | .timeout t => (Scheduler.step prioMax k.sched a).map fun sched => { k with sched := sched, sem := unlist k.sem t }
  | .delete t => (Scheduler.step prioMax k.sched a).map fun sched => { k with sched := sched, sem := unlist k.sem t }
  | .detach t => (Scheduler.step prioMax k.sched a).map fun sched => { k with sched := sched, sem := unlist k.sem t }
  | _ => (Scheduler.step prioMax k.sched a).map fun sched => { k with sched := sched }

def step (k : Kernel T M) : Act T M → Option (Kernel T M)
  | .call a => call prioMax k a
  | .tick => rtTickIncrease prioMax k
  | .semTake m time => rtSemTake prioMax k m time
  | .semRelease m => rtSemRelease prioMax k m

/-! ### Who takes the CPU -/

/-- The call is one that the running thread makes to give up the CPU, or its time slice ends. -/
def GivesUp (k : Kernel T M) : Act T M → Prop
  | .call .yield => True
  | .call .sleep => True
  | .call .exit => True
  | .tick => ∀ t ∈ k.sched.currentThread, dec 32 (k.remainingTick t) = 0
  | .semTake m time => (k.sem m).value = 0 ∧ time ≠ 0
  | _ => False

/-- The other calls that reach `rt_schedule`. -/
def Reschedules (k : Kernel T M) : Act T M → Prop
  | .call .schedule => True
  | .call (.startup _) => True
  | .call (.timeout _) => True
  | .call .exitCritical => Int.bmod (k.sched.lockNest - 1) (2 ^ 16) ≤ 0
  | .semRelease m => (k.sem m).suspendThread ≠ []
  | _ => False

/-- The call blocks or terminates the running thread. -/
def Leaves (k : Kernel T M) : Act T M → Prop
  | .call .sleep => True
  | .call .exit => True
  | .semTake m time => (k.sem m).value = 0 ∧ time ≠ 0
  | _ => False

/-- The thread that the call makes ready. -/
def readied (k : Kernel T M) : Act T M → Option T
  | .call (.startup t) => some t
  | .call (.resume t) => some t
  | .call (.timeout t) => some t
  | .semRelease m => (k.sem m).suspendThread.head?
  | _ => none

def Running (k : Kernel T M) (t : T) : Prop := k.sched.currentThread = some t ∧ (k.sched.thread t).stat = .running

def prio (k : Kernel T M) (t : T) : ℕ := (k.sched.thread t).currentPriority

section Schedule

variable {prioMax : ℕ} {s s' : State T} {t u : T}

/-- The states before and after the thread `r` was made ready; the current thread `t` still runs. -/
structure Woken (s s' : State T) (r : Option T) (t : T) : Prop where
  thread_eq : s'.thread t = s.thread t
  ready : ∀ v, (s'.thread v).stat = .ready → s'.thread v = s.thread v ∨ r = some v

omit [DecidableEq T] in
theorem Woken.of_thread_eq (r : Option T) (t : T) (h : s'.thread = s.thread) : Woken s s' r t :=
  ⟨congrFun h t, fun v _ => Or.inl (congrFun h v)⟩

omit [DecidableEq T] in
theorem Woken.of_ne {v : T} (h : ∀ w, w ≠ v → s'.thread w = s.thread w) (ht : t ≠ v) : Woken s s' (some v) t := by
  refine ⟨h t ht, fun w _ => ?_⟩
  by_cases hw : w = v
  · exact Or.inr (congrArg some hw.symm)
  · exact Or.inl (h w hw)

end Schedule

/-! ### One step -/

section Step

variable {prioMax : ℕ} {k k' : Kernel T M} {t : T}

/-- The step leaves the current thread as it is, or it ends with a call of `rt_schedule`. -/
def EndsWithSchedule (prioMax : ℕ) (k k' : Kernel T M) (a : Act T M) (t : T) : Prop :=
  ∃ s, Inv prioMax s ∧ s.currentThread = some t ∧ rtSchedule prioMax s = some k'.sched ∧
    (GivesUp k a ∨ Reschedules k a) ∧ (Leaves k a ∨ Woken k.sched s (readied k a) t)

variable (hmax : prioMax ≤ 256)

include hmax

omit [DecidableEq M] in
theorem call_cases {a : Scheduler.Act T} (h : Inv prioMax k.sched) (ht : Running k t) (hstep : call prioMax k a = some k') :
    k'.sched.currentThread = some t ∨ EndsWithSchedule prioMax k k' (.call a) t := by
  obtain ⟨hcur, hrun⟩ := ht
  cases a with
  | start =>
    obtain ⟨s, hs, rfl⟩ := Option.map_eq_some_iff.mp hstep
    simp [Scheduler.step, hcur] at hs
  | startup v =>
    obtain ⟨s, hs, rfl⟩ := Option.map_eq_some_iff.mp hstep
    simp only [Scheduler.step, rtThreadStartup, ne_eq, ite_not, Option.ite_none_right_eq_some] at hs
    obtain ⟨hstat, hs⟩ := hs
    have hne : t ≠ v := by
      rintro rfl
      rw [hrun] at hstat
      cases hstat
    have hinv := startup_inv hmax h hstat
    obtain ⟨hkeep, hother⟩ := rtThreadResume_spec prioMax (k.sched.setThread v fun th => { th with
      currentPriority := th.initPriority, masks := masksOf prioMax th.initPriority, stat := .suspend }) v
    rw [if_pos (by rw [hkeep]; exact hcur ▸ rfl)] at hs
    refine Or.inr ⟨_, hinv, hkeep.trans hcur, hs, Or.inr trivial, Or.inr (Woken.of_ne (fun w hw => ?_) hne)⟩
    rw [hother w hw, setThread_of_ne hw]
  | suspend v =>
    obtain ⟨s, hs, rfl⟩ := Option.map_eq_some_iff.mp hstep
    obtain ⟨r, hr, rfl⟩ := Option.map_eq_some_iff.mp hs
    exact Or.inl ((rtThreadSuspend_currentThread hr).trans hcur)
  | resume v =>
    cases hstep
    unfold resume
    split
    · exact Or.inl ((rtThreadResume_spec prioMax k.sched v).1.trans hcur)
    · exact Or.inl hcur
  | yield =>
    obtain ⟨s, hs, rfl⟩ := Option.map_eq_some_iff.mp hstep
    exact Or.inr ⟨k.sched, h, hcur, hs, Or.inl trivial, Or.inr (Woken.of_thread_eq _ t rfl)⟩
  | sleep =>
    obtain ⟨s, hs, rfl⟩ := Option.map_eq_some_iff.mp hstep
    simp only [Scheduler.step, rtThreadSleep, hcur, Option.bind_some, Option.bind_eq_some_iff] at hs
    obtain ⟨r, hr, hs⟩ := hs
    exact Or.inr ⟨_, rtTimerStart_inv (rtThreadSuspend_inv hmax h hr), (rtThreadSuspend_currentThread hr).trans hcur, hs,
      Or.inl trivial, Or.inl trivial⟩
  | sleepReturn =>
    obtain ⟨s, hs, rfl⟩ := Option.map_eq_some_iff.mp hstep
    obtain ⟨v, -, rfl⟩ := Option.map_eq_some_iff.mp hs
    left
    split <;> exact hcur
  | timerStart v =>
    cases hstep
    exact Or.inl hcur
  | control v priority =>
    obtain ⟨s, hs, rfl⟩ := Option.map_eq_some_iff.mp hstep
    simp only [Scheduler.step, Option.ite_none_right_eq_some, Option.some.injEq] at hs
    obtain ⟨-, rfl⟩ := hs
    exact Or.inl ((rtThreadControl_currentThread prioMax k.sched v priority).trans hcur)
  | delete v =>
    obtain ⟨s, hs, rfl⟩ := Option.map_eq_some_iff.mp hstep
    simp only [Scheduler.step, rtThreadDelete, Option.ite_none_left_eq_some, Option.some.injEq] at hs
    obtain ⟨-, rfl⟩ := hs
    exact Or.inl ((closeThread_currentThread prioMax k.sched v).trans hcur)
  | detach v =>
    obtain ⟨s, hs, rfl⟩ := Option.map_eq_some_iff.mp hstep
    simp only [Scheduler.step, rtThreadDetach, Option.ite_none_right_eq_some] at hs
    obtain ⟨-, hs⟩ := hs
    left
    split at hs
    · cases hs
      exact (closeThread_currentThread prioMax k.sched v).trans hcur
    · cases hs
      exact (closeThread_currentThread prioMax k.sched v).trans hcur
  | exit =>
    obtain ⟨s, hs, rfl⟩ := Option.map_eq_some_iff.mp hstep
    simp only [Scheduler.step, rtThreadExit, hcur, Option.bind_some] at hs
    have hclosed := exit_inv hmax h t
    have hkeep := (remove_currentThread prioMax k.sched t).trans hcur
    split at hs
    · exact Or.inr ⟨_, hclosed, hkeep, hs, Or.inl trivial, Or.inl trivial⟩
    · exact Or.inr ⟨_, insertDefunct_inv hclosed, hkeep, hs, Or.inl trivial, Or.inl trivial⟩
  | timeout v =>
    obtain ⟨s, hs, rfl⟩ := Option.map_eq_some_iff.mp hstep
    simp only [Scheduler.step, rtThreadTimeout, Option.ite_none_right_eq_some] at hs
    obtain ⟨-, hstat, hs⟩ := hs
    have hne : t ≠ v := by
      rintro rfl
      rw [hrun] at hstat
      cases hstat
    have hinv := @Inv.wake T _ prioMax k.sched v hmax h hstat (fun th => { th with error := .etimeout, threadTimer := false })
      fun _ => ⟨rfl, rfl, rfl⟩
    refine Or.inr ⟨_, hinv, (insert_currentThread prioMax _ v).trans hcur, hs, Or.inr trivial,
      Or.inr (Woken.of_ne (fun w hw => ?_) hne)⟩
    rw [insert_thread_of_ne prioMax hw, setThread_of_ne hw]
    rfl
  | schedule =>
    obtain ⟨s, hs, rfl⟩ := Option.map_eq_some_iff.mp hstep
    exact Or.inr ⟨k.sched, h, hcur, hs, Or.inr trivial, Or.inr (Woken.of_thread_eq _ t rfl)⟩
  | enterCritical =>
    cases hstep
    exact Or.inl hcur
  | exitCritical =>
    obtain ⟨s, hs, rfl⟩ := Option.map_eq_some_iff.mp hstep
    simp only [Scheduler.step, rtExitCritical] at hs
    split at hs
    · next hnest =>
      rw [if_pos (by rw [hcur]; rfl)] at hs
      exact Or.inr ⟨_, lockNest_inv h 0, hcur, hs, Or.inr hnest, Or.inr (Woken.of_thread_eq _ t rfl)⟩
    · cases hs
      exact Or.inl hcur

omit [DecidableEq M] in
theorem take_inv {s : State T} {v : T} (h : Inv prioMax s) {r : State T × RtThread.Ipc.Base.RtErr}
    (hr : rtThreadSuspend prioMax (s.setThread v fun th => { th with error := .eok }) v = some r) (time : ℤ) :
    Inv prioMax (if 0 < time then rtTimerStart r.1 v else r.1) ∧
      (if 0 < time then rtTimerStart r.1 v else r.1).currentThread = s.currentThread := by
  have hset : Inv prioMax (s.setThread v fun th => { th with error := .eok }) := h.keep fun _ => ⟨rfl, rfl, rfl, rfl⟩
  have hinv := rtThreadSuspend_inv hmax hset hr
  have hkeep := rtThreadSuspend_currentThread hr
  split
  · exact ⟨rtTimerStart_inv hinv, hkeep⟩
  · exact ⟨hinv, hkeep⟩

omit [DecidableEq M] in
theorem resume_inv (h : Inv prioMax k.sched) (v : T) : Inv prioMax (resume prioMax k v).sched := by
  unfold resume
  split
  · exact rtThreadResume_inv hmax h
  · exact h

omit hmax [DecidableEq M] in
theorem resume_spec (ht : Running k t) (v : T) :
    (resume prioMax k v).sched.currentThread = some t ∧ Woken k.sched (resume prioMax k v).sched (some v) t := by
  unfold resume
  by_cases hstat : (k.sched.thread v).stat = .suspend
  · rw [if_pos hstat]
    obtain ⟨hkeep, hother⟩ := rtThreadResume_spec prioMax k.sched v
    refine ⟨hkeep.trans ht.1, Woken.of_ne hother ?_⟩
    rintro rfl
    rw [ht.2] at hstat
    cases hstat
  · rw [if_neg hstat]
    exact ⟨ht.1, Woken.of_thread_eq _ t rfl⟩

theorem step_cases {a : Act T M} (h : Inv prioMax k.sched) (ht : Running k t) (hstep : step prioMax k a = some k') :
    k'.sched.currentThread = some t ∨ EndsWithSchedule prioMax k k' a t := by
  have hcur := ht.1
  cases a with
  | call a => exact call_cases hmax h ht hstep
  | tick =>
    simp only [step, rtTickIncrease, hcur, Option.bind_some] at hstep
    split at hstep
    · next hzero =>
      obtain ⟨s, hs, rfl⟩ := Option.map_eq_some_iff.mp hstep
      refine Or.inr ⟨k.sched, h, hcur, hs, Or.inl fun v hv => ?_, Or.inr (Woken.of_thread_eq _ t rfl)⟩
      cases hcur.symm.trans hv
      exact hzero
    · cases hstep
      exact Or.inl hcur
  | semTake m time =>
    simp only [step, rtSemTake, hcur, Option.bind_some] at hstep
    split at hstep
    · cases hstep
      exact Or.inl hcur
    · next hvalue =>
      split at hstep
      · cases hstep
        exact Or.inl hcur
      · next htime =>
        obtain ⟨r, hr, hstep⟩ := Option.bind_eq_some_iff.mp hstep
        obtain ⟨s, hs, rfl⟩ := Option.map_eq_some_iff.mp hstep
        have hleaves : (k.sem m).value = 0 ∧ time ≠ 0 := ⟨Nat.eq_zero_of_not_pos hvalue, htime⟩
        obtain ⟨hinv, hkeep⟩ := take_inv hmax h hr time
        exact Or.inr ⟨_, hinv, hkeep.trans hcur, hs, Or.inl hleaves, Or.inl hleaves⟩
  | semRelease m =>
    simp only [step, rtSemRelease] at hstep
    cases hlist : (k.sem m).suspendThread with
    | nil =>
      simp only [hlist, Option.some.injEq] at hstep
      rw [← hstep]
      exact Or.inl hcur
    | cons v rest =>
      simp only [hlist] at hstep
      obtain ⟨s, hs, rfl⟩ := Option.map_eq_some_iff.mp hstep
      have hreadied : readied k (Act.semRelease m) = some v := by rw [readied, hlist]; rfl
      obtain ⟨hkeep, hwoken⟩ := @resume_spec T M _ prioMax k t ht v
      refine Or.inr ⟨_, resume_inv hmax h v, hkeep, hs, Or.inr ?_, Or.inr (hreadied ▸ hwoken)⟩
      rw [Reschedules, hlist]
      exact List.cons_ne_nil v rest

omit [DecidableEq M] in
theorem call_inv {a : Scheduler.Act T} (h : Inv prioMax k.sched) (hstep : call prioMax k a = some k') :
    Inv prioMax k'.sched := by
  cases a with
  | resume v =>
    cases hstep
    exact resume_inv hmax h v
  | timerStart v =>
    cases hstep
    exact rtTimerStart_inv h
  | enterCritical =>
    cases hstep
    exact lockNest_inv h _
  | _ =>
    obtain ⟨s, hs, rfl⟩ := Option.map_eq_some_iff.mp hstep
    exact Scheduler.step_inv hmax h hs

theorem step_inv {a : Act T M} (h : Inv prioMax k.sched) (hstep : step prioMax k a = some k') : Inv prioMax k'.sched := by
  cases a with
  | call a => exact call_inv hmax h hstep
  | tick =>
    obtain ⟨v, hcur, hstep⟩ := Option.bind_eq_some_iff.mp hstep
    simp only at hstep
    split at hstep
    · obtain ⟨s, hs, rfl⟩ := Option.map_eq_some_iff.mp hstep
      exact rtSchedule_inv hmax h hs
    · cases hstep
      exact h
  | semTake m time =>
    simp only [step, rtSemTake] at hstep
    split at hstep
    · cases hstep
      exact h
    · split at hstep
      · cases hstep
        exact h
      · obtain ⟨v, -, hstep⟩ := Option.bind_eq_some_iff.mp hstep
        obtain ⟨r, hr, hstep⟩ := Option.bind_eq_some_iff.mp hstep
        obtain ⟨s, hs, rfl⟩ := Option.map_eq_some_iff.mp hstep
        exact rtSchedule_inv hmax (take_inv hmax h hr time).1 hs
  | semRelease m =>
    simp only [step, rtSemRelease] at hstep
    split at hstep
    · cases hstep
      exact h
    · obtain ⟨s, hs, rfl⟩ := Option.map_eq_some_iff.mp hstep
      exact rtSchedule_inv hmax (resume_inv hmax h _) hs

theorem run_inv {thread : T → Thread} {tick : T → ℕ} {value : M → ℕ} {flag : M → IpcFlag} {acts : List (Act T M)}
    (hthread : ∀ t, ∃ p isSystem cleanup, p < prioMax ∧ thread t = rtThreadInit p isSystem cleanup)
    (hrun : exec (step prioMax) (initial thread tick value flag) acts = some k) : Inv prioMax k.sched :=
  exec_inv (fun k : Kernel T M => Inv prioMax k.sched) (fun _ _ _ h hs => step_inv hmax h hs) (init_inv hthread) hrun

omit hmax

def waitRun : List (Act ℕ ℕ) :=
  [.call (.startup 1), .call (.startup 0), .call .start, .semTake 0 (-1)]

end Step

end RtThread.Sched.TimeSlice
