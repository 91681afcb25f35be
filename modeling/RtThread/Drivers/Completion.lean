import RtThread.Ipc.Base
import RtThread.Lib.Transition

/-!
# Completions (`completion.c:30-129`)

One thread waits, and any number of threads and interrupts signal. The steps are the
interrupt-disabled sections of `rt_completion_wait` and `rt_completion_done`, the test of the
flag that `rt_completion_done` makes in front of its section, and the timer of the waiting thread.
-/

namespace RtThread.Drivers.Completion

open RtThread.Ipc.Base RtThread.Lib.Transition

inductive Flag where
  | uncompleted
  | completed
  deriving DecidableEq, Repr

structure RtCompletion (T : Type*) where
  flag : Flag
  suspendedList : List T
  deriving DecidableEq

variable {T : Type*}

def rtCompletionInit : RtCompletion T := ⟨.uncompleted, []⟩

inductive Entered where
  | returned (result : RtErr)
  | suspended
  deriving DecidableEq, Repr

/-- The first section of `rt_completion_wait` (`completion.c:54-89`); `none` when the assertion on the
suspended list stops it. -/
def rtCompletionWait (c : RtCompletion T) (thread : T) (timeout : ℤ) : Option (RtCompletion T × Entered) :=
  if c.flag ≠ .completed then
    if c.suspendedList ≠ [] then none
    else if timeout = 0 then some (c, .returned .etimeout)
    else some ({ c with suspendedList := c.suspendedList ++ [thread] }, .suspended)
  else some ({ c with flag := .uncompleted }, .returned .eok)

/-- The second section (`completion.c:91-102`), and what the call returns. -/
def rtCompletionWaitExit (c : RtCompletion T) (thread : Thread) : RtCompletion T × RtErr :=
  ({ c with flag := .uncompleted }, thread.error)

/-- The section of `rt_completion_done` (`completion.c:114-138`), with the thread that it resumes. -/
def rtCompletionDone (c : RtCompletion T) : RtCompletion T × Option T :=
  (⟨.completed, c.suspendedList.tail⟩, c.suspendedList.head?)

/-! ### Runs -/

/-- `ready` is between `rt_schedule` and the second section. -/
inductive Waiter where
  | idle
  | suspended
  | ready
  deriving DecidableEq, Repr

/-- `pending` counts the calls of `rt_completion_done` between their test and their section, and
`signalled` says whether one has executed since the last wait that returned `RT_EOK`. -/
structure Sys (T : Type*) where
  completion : RtCompletion T
  thread : Thread
  waiter : Waiter
  pending : ℕ
  signalled : Bool

inductive Act where
  | wait (timeout : ℤ)
  | timer
  | resume
  | doneTest
  | done

def start (thread : Thread) : Sys T := ⟨rtCompletionInit, thread, .idle, 0, false⟩

def Sys.returns (s : Sys T) (c : RtCompletion T) (result : RtErr) : Sys T :=
  { s with
    completion := c
    waiter := .idle
    signalled := if result = .eok then false else s.signalled }

def Sys.enters (s : Sys T) (timeout : ℤ) (c : RtCompletion T) : Entered → Sys T
  | .returned result => s.returns c result
  | .suspended => { s with
      completion := c
      thread := ({ s.thread with error := .eok }).suspend timeout
      waiter := .suspended }

variable [DecidableEq T]

def Sys.signal (s : Sys T) (tid : T) (r : RtCompletion T × Option T) : Sys T :=
  if r.2 = some tid then
    { s with completion := r.1, thread := s.thread.resume, waiter := .ready, signalled := true }
  else { s with completion := r.1, signalled := true }

def step (tid : T) (s : Sys T) : Act → Option (Sys T)
  | .wait timeout =>
    if s.waiter = .idle then
      (rtCompletionWait s.completion tid timeout).map fun r => s.enters timeout r.1 r.2
    else none
  | .timer =>
    if s.waiter = .suspended ∧ s.thread.threadTimer = true then
      some { s with
        completion := { s.completion with suspendedList := s.completion.suspendedList.erase tid }
        thread := s.thread.timeout
        waiter := .ready }
    else none
  | .resume =>
    if s.waiter = .ready then
      let r := rtCompletionWaitExit s.completion s.thread
      some (s.returns r.1 r.2)
    else none
  | .doneTest =>
    if s.completion.flag = .completed then some { s with signalled := true }
    else some { s with pending := s.pending + 1 }
  | .done =>
    if 0 < s.pending then
      some ({ s with pending := s.pending - 1 }.signal tid (rtCompletionDone s.completion))
    else none

/-- A wait that starts after a signal returns `RT_EOK` at once, and a wait that will return
`-RT_ETIMEOUT` has nothing to clear. -/
structure NotLost (tid : T) (s : Sys T) : Prop where
  next : s.waiter = .idle → s.signalled = true → ∀ timeout,
    (rtCompletionWait s.completion tid timeout).map Prod.snd = some (.returned .eok)
  timeout : s.waiter = .ready → (rtCompletionWaitExit s.completion s.thread).2 = .etimeout →
    (rtCompletionWaitExit s.completion s.thread).1 = s.completion

/-- The step is not the section of an `rt_completion_done` between the end of a wait's timer and
that wait's second section. -/
def NoDoneAfterTimeout (s : Sys T) : Act → Prop
  | .done => s.waiter = .ready → s.thread.error ≠ .etimeout
  | _ => True

instance (s : Sys T) : (a : Act) → Decidable (NoDoneAfterTimeout s a)
  | .done => inferInstanceAs (Decidable (_ → _))
  | .wait _ | .timer | .resume | .doneTest => isTrue trivial

/-! ### The invariant -/

/-- The flag is set when a signal waits for the next call, and the suspended list holds the thread
while it waits. -/
def Inv (tid : T) (s : Sys T) : Prop :=
  match s.waiter with
  | .idle => s.completion.suspendedList = [] ∧ (s.signalled = true → s.completion.flag = .completed)
  | .suspended => s.completion = ⟨.uncompleted, [tid]⟩ ∧ s.signalled = false ∧ s.thread.error = .eok
  | .ready => s.completion.suspendedList = [] ∧
      (s.thread.error = .etimeout → s.completion.flag = .uncompleted ∧ s.signalled = false) ∧
      (s.thread.error = .eok ∨ s.thread.error = .etimeout)

variable {tid : T} {s s' : Sys T}

omit [DecidableEq T] in
theorem rtCompletionWait_of_completed {c : RtCompletion T} (h : c.flag = .completed) (timeout : ℤ) :
    rtCompletionWait c tid timeout = some ({ c with flag := .uncompleted }, .returned .eok) := by
  rw [rtCompletionWait, if_neg (not_not.mpr h)]

omit [DecidableEq T] in
theorem Inv.notLost (h : Inv tid s) : NotLost tid s := by
  constructor
  · intro hw hs timeout
    simp only [Inv, hw] at h
    rw [rtCompletionWait_of_completed (h.2 hs)]
    rfl
  · intro hw he
    simp only [Inv, hw] at h
    obtain ⟨hflag, -⟩ := h.2.1 he
    rw [rtCompletionWaitExit, ← hflag]

omit [DecidableEq T] in
theorem inv_start (thread : Thread) : Inv tid (start thread : Sys T) := ⟨rfl, fun h => (by cases h)⟩

omit [DecidableEq T] in
theorem inv_returns {c : RtCompletion T} {result : RtErr} (hlist : c.suspendedList = [])
    (hflag : result ≠ .eok → s.signalled = true → c.flag = .completed) : Inv tid (s.returns c result) := by
  refine ⟨hlist, fun hs => ?_⟩
  simp only [Sys.returns] at hs ⊢
  split at hs
  · cases hs
  · next hne => exact hflag hne hs

omit [DecidableEq T] in
theorem inv_wait (h : Inv tid s) (hw : s.waiter = .idle) {timeout : ℤ} {r : RtCompletion T × Entered}
    (hr : rtCompletionWait s.completion tid timeout = some r) :
    Inv tid (s.enters timeout r.1 r.2) := by
  simp only [Inv, hw] at h
  obtain ⟨hlist, hsignal⟩ := h
  simp only [rtCompletionWait, hlist, ne_eq, not_true_eq_false, if_false, List.nil_append] at hr
  by_cases hflag : s.completion.flag = .completed
  · rw [if_neg (not_not.mpr hflag)] at hr
    cases hr
    exact inv_returns rfl fun hne => absurd rfl hne
  · -- no signal is left: the call fails, or the thread is suspended
    have hnone : s.signalled = false := Bool.eq_false_iff.mpr fun hs => hflag (hsignal hs)
    rw [if_pos hflag] at hr
    split at hr
    · cases hr
      exact inv_returns hlist fun _ hs => absurd (hs.symm.trans hnone) Bool.noConfusion
    · cases hr
      have huncompleted : s.completion.flag = .uncompleted := by
        cases hf : s.completion.flag with
        | uncompleted => rfl
        | completed => exact absurd hf hflag
      exact ⟨by rw [huncompleted, Sys.enters], hnone, rfl⟩

theorem inv_timer (h : Inv tid s) (hw : s.waiter = .suspended) :
    Inv tid { s with
      completion := { s.completion with suspendedList := s.completion.suspendedList.erase tid }
      thread := s.thread.timeout
      waiter := .ready } := by
  simp only [Inv, hw] at h
  obtain ⟨hc, hs, -⟩ := h
  refine ⟨?_, fun _ => ⟨?_, hs⟩, .inr rfl⟩
  · simp only [hc, List.erase_cons_head]
  · simp only [hc]

omit [DecidableEq T] in
theorem inv_resume (h : Inv tid s) (hw : s.waiter = .ready) :
    Inv tid (s.returns (rtCompletionWaitExit s.completion s.thread).1 (rtCompletionWaitExit s.completion s.thread).2) := by
  simp only [Inv, hw] at h
  obtain ⟨hlist, htimeout, herror⟩ := h
  refine inv_returns hlist fun hne hs => ?_
  have hnone := (htimeout (herror.resolve_left hne)).2
  exact absurd (hs.symm.trans hnone) Bool.noConfusion

omit [DecidableEq T] in
theorem inv_doneTest (h : Inv tid s) (hflag : s.completion.flag = .completed) :
    Inv tid { s with signalled := true } := by
  unfold Inv at h ⊢
  cases hw : s.waiter with
  | idle =>
    simp only [hw] at h ⊢
    exact ⟨h.1, fun _ => hflag⟩
  | suspended =>
    simp only [hw] at h
    rw [h.1] at hflag
    cases hflag
  | ready =>
    simp only [hw] at h ⊢
    refine ⟨h.1, fun he => ?_, h.2.2⟩
    have huncompleted := (h.2.1 he).1
    exact absurd (hflag.symm.trans huncompleted) Flag.noConfusion

theorem inv_done (h : Inv tid s) (hC : s.waiter = .ready → s.thread.error ≠ .etimeout) (n : ℕ) :
    Inv tid ({ s with pending := n }.signal tid (rtCompletionDone s.completion)) := by
  unfold Inv at h
  cases hw : s.waiter with
  | idle =>
    simp only [hw] at h
    simp only [Sys.signal, rtCompletionDone, h.1, List.head?_nil, reduceCtorEq, if_false]
    simp only [Inv]
    exact ⟨List.tail_nil, fun _ => trivial⟩
  | suspended =>
    simp only [hw] at h
    simp only [Sys.signal, rtCompletionDone, h.1, List.head?_cons, if_true]
    exact ⟨rfl, fun he => absurd (h.2.2.symm.trans he) RtErr.noConfusion, .inl h.2.2⟩
  | ready =>
    simp only [hw] at h
    simp only [Sys.signal, rtCompletionDone, h.1, List.head?_nil, reduceCtorEq, if_false]
    simp only [Inv]
    exact ⟨List.tail_nil, fun he => absurd he (hC hw), h.2.2⟩

theorem step_inv {a : Act} (h : Inv tid s) (hC : NoDoneAfterTimeout s a) (hstep : step tid s a = some s') :
    Inv tid s' := by
  cases a with
  | wait timeout =>
    simp only [step] at hstep
    split at hstep
    · next hw =>
      obtain ⟨r, hr, rfl⟩ := Option.map_eq_some_iff.mp hstep
      exact inv_wait h hw hr
    · cases hstep
  | timer =>
    simp only [step] at hstep
    split at hstep
    · next hw =>
      cases hstep
      exact inv_timer h hw.1
    · cases hstep
  | resume =>
    simp only [step] at hstep
    split at hstep
    · next hw =>
      cases hstep
      exact inv_resume h hw
    · cases hstep
  | doneTest =>
    simp only [step] at hstep
    split at hstep
    · next hflag =>
      cases hstep
      exact inv_doneTest h hflag
    · cases hstep
      exact h
  | done =>
    simp only [step] at hstep
    split at hstep
    · cases hstep
      exact inv_done h hC _
    · cases hstep

/-- Along every run in which no `rt_completion_done` executes its section between the end of a
wait's timer and the second section of that wait, no signal is lost. -/
theorem completion_kept_without_late_done (thread : Thread) (acts : List Act)
    (hC : AllSteps (step tid) NoDoneAfterTimeout (start thread) acts)
    (hrun : exec (step tid) (start thread) acts = some s') : NotLost tid s' :=
  (exec_inv_of_allSteps (Inv tid) NoDoneAfterTimeout (fun _ _ _ h hC hstep => step_inv h hC hstep)
    (inv_start thread) hC hrun).notLost

/-- A wait runs into its timeout before anything is signalled, and the next wait is woken. -/
def timeoutRun : List Act :=
  [.wait 5, .doneTest, .timer, .resume, .done, .wait 0, .wait (-1), .doneTest, .done, .resume]

theorem completion_kept_without_late_done_run :
    ((exec (step 0) (start (rtThreadInit 9)) timeoutRun).map fun s => s.signalled) = some false ∧
      ∀ s', exec (step 0) (start (rtThreadInit 9)) timeoutRun = some s' → NotLost 0 s' :=
  ⟨by decide, fun _ hrun => completion_kept_without_late_done (rtThreadInit 9) timeoutRun (by decide) hrun⟩

/-- `rt_completion_done` executes after the timer and before the waiting thread runs: the signal is
gone when the wait has returned. -/
theorem completion_lost_after_timeout :
    ¬∀ s', exec (step 0) (start (rtThreadInit 9)) [.wait 5, .timer, .doneTest, .done, .resume] = some s' →
      NotLost 0 s' := by
  intro hall
  have hlost := (hall _ rfl).next rfl rfl 5
  revert hlost
  decide

end RtThread.Drivers.Completion
