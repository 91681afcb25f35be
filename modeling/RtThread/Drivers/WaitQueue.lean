import RtThread.Lib.Transition

/-!
# Wait queues (`waitqueue.c:18-130`)

The functions are cut at the ends of their interrupt-disabled sections, which are the steps of the
runs. Any number of threads test a condition and then wait; threads and interrupts make it true and
then wake the queue.
-/

namespace RtThread.Drivers.WaitQueue

open RtThread.Lib.Transition

/-- `flag` is `RT_WQ_FLAG_WAKEUP`. A node of `waiting_list` is given by its `polling_thread`: the
nodes of `rt_wqueue_wait` all have `__wqueue_default_wake`, which answers 0. -/
structure RtWqueue (T : Type*) where
  flag : Bool
  waitingList : List T
  deriving DecidableEq

variable {T : Type*}

def rtWqueueInit : RtWqueue T := ⟨false, []⟩

/-- `rt_wqueue_wakeup`, with the thread it resumes. -/
def rtWqueueWakeup (q : RtWqueue T) : RtWqueue T × Option T :=
  (⟨true, q.waitingList.tail⟩, q.waitingList.head?)

/-- The first section of `rt_wqueue_wait` (`waitqueue.c:100-122`), and whether it suspends the thread;
when it does not, it goes on to `__exit_wakeup`. -/
def rtWqueueWait (q : RtWqueue T) (tid : T) : RtWqueue T × Bool :=
  if q.flag = true then ({ q with flag := false }, false)
  else ({ q with waitingList := q.waitingList ++ [tid] }, true)

/-- The section at `__exit_wakeup` (`waitqueue.c:122-126`). -/
def exitWakeup (q : RtWqueue T) : RtWqueue T := { q with flag := false }

/-- `rt_wqueue_remove`; it does nothing when the node is not in the list. -/
def rtWqueueRemove [DecidableEq T] (q : RtWqueue T) (tid : T) : RtWqueue T :=
  { q with waitingList := q.waitingList.erase tid }

def rtWaitingForever : ℤ := -1

/-! ### Runs -/

/-- Where a thread is: `tested` after its test of the condition and before the first section,
`ready` when it has been resumed or its timer has expired, `leaving` in front of the removal of
its node. -/
inductive Place where
  | idle
  | tested (tick : ℤ)
  | suspended (timer : Bool)
  | ready
  | leaving
  deriving DecidableEq, Repr

/-- `raised` counts the wake-ups still to come after the condition was made true, and `missed`
holds the threads that have had a wake-up since their last test of the condition, before they
were suspended. -/
structure Sys (T : Type*) where
  queue : RtWqueue T
  place : T → Place
  condition : Bool
  raised : ℕ
  missed : T → Bool

inductive Act (T : Type*) where
  | test (t : T) (tick : ℤ)
  | enter (t : T)
  | timer (t : T)
  | leave (t : T)
  | remove (t : T)
  | raise
  | wakeup
  | lower

def start : Sys T := ⟨rtWqueueInit, fun _ => .idle, false, 0, fun _ => false⟩

/-- `rt_thread_resume` does nothing to a thread that is not suspended. -/
def Place.resume : Place → Place
  | .suspended _ => .ready
  | place => place

def Place.isTested : Place → Bool
  | .tested _ => true
  | _ => false

variable [DecidableEq T]

def Sys.move (s : Sys T) (t : T) (place : Place) : Sys T :=
  { s with place := Function.update s.place t place }

def Sys.resume (s : Sys T) : Option T → Sys T
  | some t => s.move t (s.place t).resume
  | none => s

def step (s : Sys T) : Act T → Option (Sys T)
  | .test t tick =>
    if s.place t = .idle then
      let s := { s with missed := Function.update s.missed t false }
      if s.condition = true ∨ tick = 0 then some s else some (s.move t (.tested tick))
    else none
  | .enter t =>
    match s.place t with
    | .tested tick =>
      let r := rtWqueueWait s.queue t
      some ({ s with queue := r.1 }.move t
        (if r.2 = true then .suspended (decide (tick ≠ rtWaitingForever)) else .leaving))
    | _ => none
  | .timer t => if s.place t = .suspended true then some (s.move t .ready) else none
  | .leave t => if s.place t = .ready then some ({ s with queue := exitWakeup s.queue }.move t .leaving) else none
  | .remove t => if s.place t = .leaving then some ({ s with queue := rtWqueueRemove s.queue t }.move t .idle) else none
  | .raise => some { s with condition := true, raised := s.raised + 1 }
  | .wakeup =>
    if 0 < s.raised then
      let r := rtWqueueWakeup s.queue
      some ({ s with
        queue := r.1
        raised := s.raised - 1
        missed := fun t => s.missed t || (s.place t).isTested }.resume r.2)
    else none
  | .lower => some { s with condition := false }

/-- The thread stays suspended in every continuation in which the queue is not woken again. -/
def StaysSuspended (s : Sys T) (t : T) : Prop :=
  ∀ acts s', (∀ a ∈ acts, a ≠ .wakeup) → exec step s acts = some s' → ∃ timer, s'.place t = .suspended timer

/-- No thread stays suspended that had a wake-up between its test and its suspension. -/
def NotLost (s : Sys T) : Prop := ∀ t, s.missed t = true → ¬StaysSuspended s t

/-- The step does not clear the flag while another thread, which has had a wake-up since its test,
is still in front of its suspension. -/
def NoClearBeforeEntry (s : Sys T) : Act T → Prop
  | .enter t => ∀ u, u ≠ t → s.queue.flag = true → (s.place u).isTested = true → s.missed u = false
  | .leave _ => ∀ u, (s.place u).isTested = true → s.missed u = false
  | _ => True

/-! ### The invariant -/

/-- The flag is set while a thread that has had a wake-up since its test is in front of its suspension,
and no such thread is suspended. -/
structure Inv (s : Sys T) : Prop where
  tested : ∀ t, (s.place t).isTested = true → s.missed t = true → s.queue.flag = true
  suspended : ∀ t timer, s.place t = .suspended timer → s.missed t = false

omit [DecidableEq T] in
theorem inv_start : Inv (start : Sys T) := ⟨fun _ h => (by cases h), fun _ _ h => (by cases h)⟩

theorem Inv.notLost {s : Sys T} (h : Inv s) : NotLost s := by
  intro t hmissed hstays
  obtain ⟨timer, ht⟩ := hstays [] s (fun a ha => (by cases ha)) rfl
  exact absurd (hmissed.symm.trans (h.suspended t timer ht)) Bool.noConfusion

variable {s s' : Sys T}

theorem Inv.move (h : Inv s) (t : T) {place : Place}
    (htested : place.isTested = true → s.missed t = true → s.queue.flag = true)
    (hsuspended : ∀ timer, place = .suspended timer → s.missed t = false) : Inv (s.move t place) := by
  constructor
  · intro u hu hmissed
    simp only [Sys.move] at hu hmissed ⊢
    by_cases hut : u = t
    · rw [hut, Function.update_self] at hu
      rw [hut] at hmissed
      exact htested hu hmissed
    · rw [Function.update_of_ne hut] at hu
      exact h.tested u hu hmissed
  · intro u timer hu
    simp only [Sys.move] at hu ⊢
    by_cases hut : u = t
    · rw [hut, Function.update_self] at hu
      rw [hut]
      exact hsuspended timer hu
    · rw [Function.update_of_ne hut] at hu
      exact h.suspended u timer hu

theorem inv_test (h : Inv s) {t : T} (ht : s.place t = .idle) (tick : ℤ) :
    Inv ({ s with missed := Function.update s.missed t false } : Sys T) ∧
      Inv ({ s with missed := Function.update s.missed t false }.move t (.tested tick)) := by
  have hinv : Inv ({ s with missed := Function.update s.missed t false } : Sys T) := by
    constructor
    · intro u hu hmissed
      simp only at hu hmissed
      have hut : u ≠ t := fun he => by rw [he, ht] at hu; cases hu
      rw [Function.update_of_ne hut] at hmissed
      exact h.tested u hu hmissed
    · intro u timer hu
      simp only at hu ⊢
      have hut : u ≠ t := fun he => by rw [he, ht] at hu; cases hu
      rw [Function.update_of_ne hut]
      exact h.suspended u timer hu
  refine ⟨hinv, hinv.move t (fun _ hmissed => ?_) fun _ he => (by cases he)⟩
  simp only [Function.update_self] at hmissed
  cases hmissed

theorem inv_enter (h : Inv s) {t : T} (hC : NoClearBeforeEntry s (.enter t)) {tick : ℤ} (ht : s.place t = .tested tick) :
    Inv ({ s with queue := (rtWqueueWait s.queue t).1 }.move t
      (if (rtWqueueWait s.queue t).2 = true then .suspended (decide (tick ≠ rtWaitingForever)) else .leaving)) := by
  by_cases hflag : s.queue.flag = true
  · -- the flag is cleared, and no other thread relies on it
    rw [rtWqueueWait, if_pos hflag, if_neg Bool.false_ne_true]
    constructor
    · intro u hu hmissed
      simp only [Sys.move] at hu hmissed
      by_cases hut : u = t
      · rw [hut, Function.update_self] at hu
        cases hu
      · rw [Function.update_of_ne hut] at hu
        exact absurd (hmissed.symm.trans (hC u hut hflag hu)) Bool.noConfusion
    · intro u timer hu
      simp only [Sys.move] at hu
      by_cases hut : u = t
      · rw [hut, Function.update_self] at hu
        cases hu
      · rw [Function.update_of_ne hut] at hu
        exact h.suspended u timer hu
  · rw [rtWqueueWait, if_neg hflag, if_pos rfl]
    have hinv : Inv { s with queue := { s.queue with waitingList := s.queue.waitingList ++ [t] } } :=
      ⟨h.tested, h.suspended⟩
    refine hinv.move t (fun he => (by cases he)) fun _ _ => ?_
    refine Bool.eq_false_iff.mpr fun hmissed => hflag (h.tested t ?_ hmissed)
    rw [ht]
    rfl

theorem inv_leave (h : Inv s) {t : T} (hC : NoClearBeforeEntry s (.leave t)) :
    Inv ({ s with queue := exitWakeup s.queue }.move t .leaving) := by
  have hinv : Inv { s with queue := exitWakeup s.queue } :=
    ⟨fun u hu hmissed => absurd (hmissed.symm.trans (hC u hu)) Bool.noConfusion, h.suspended⟩
  exact hinv.move t (fun he => (by cases he)) fun _ he => (by cases he)

theorem inv_resume (h : Inv s) (head : Option T) : Inv (s.resume head) := by
  cases head with
  | none => exact h
  | some t =>
    refine h.move t (fun htested => ?_) fun timer hsuspended => ?_
    · cases hp : s.place t with
      | tested tick => exact h.tested t (by rw [hp]; rfl)
      | _ => rw [hp] at htested; cases htested
    · cases hp : s.place t with
      | suspended timer => rw [hp] at hsuspended; cases hsuspended
      | _ => rw [hp] at hsuspended; cases hsuspended

theorem inv_wakeup (h : Inv s) : Inv ({ s with
    queue := (rtWqueueWakeup s.queue).1
    raised := s.raised - 1
    missed := fun t => s.missed t || (s.place t).isTested }.resume (rtWqueueWakeup s.queue).2) := by
  refine inv_resume ⟨fun _ _ _ => rfl, fun t timer ht => ?_⟩ _
  simp only [Bool.or_eq_false_iff]
  refine ⟨h.suspended t timer ht, ?_⟩
  rw [ht]
  rfl

theorem step_inv {a : Act T} (h : Inv s) (hC : NoClearBeforeEntry s a) (hstep : step s a = some s') : Inv s' := by
  cases a with
  | test t tick =>
    simp only [step] at hstep
    split at hstep
    · next ht =>
      split at hstep
      · cases hstep
        exact (inv_test h ht tick).1
      · cases hstep
        exact (inv_test h ht tick).2
    · cases hstep
  | enter t =>
    simp only [step] at hstep
    cases ht : s.place t with
    | tested tick =>
      rw [ht] at hstep
      cases hstep
      exact inv_enter h hC ht
    | _ => simp [ht] at hstep
  | timer t =>
    simp only [step] at hstep
    split at hstep
    · cases hstep
      exact h.move t (fun he => (by cases he)) fun _ he => (by cases he)
    · cases hstep
  | leave t =>
    simp only [step] at hstep
    split at hstep
    · cases hstep
      exact inv_leave h hC
    · cases hstep
  | remove t =>
    simp only [step] at hstep
    split at hstep
    · cases hstep
      have hinv : Inv { s with queue := rtWqueueRemove s.queue t } := ⟨h.tested, h.suspended⟩
      exact hinv.move t (fun he => (by cases he)) fun _ he => (by cases he)
    · cases hstep
  | raise =>
    cases hstep
    exact ⟨h.tested, h.suspended⟩
  | wakeup =>
    simp only [step] at hstep
    split at hstep
    · cases hstep
      exact inv_wakeup h
    · cases hstep
  | lower =>
    cases hstep
    exact ⟨h.tested, h.suspended⟩

/-- Along every run in which no thread clears the flag while another one, woken since its test, is in
front of its suspension, no thread stays suspended on account of such a wake-up. -/
theorem wqueue_keeps_wakeups (acts : List (Act T)) (hC : AllSteps step NoClearBeforeEntry (start : Sys T) acts)
    (hrun : exec step start acts = some s') : NotLost s' :=
  (exec_inv_of_allSteps Inv NoClearBeforeEntry (fun _ _ _ h hC hstep => step_inv h hC hstep) inv_start hC hrun).notLost

instance [Fintype T] (s : Sys T) : (a : Act T) → Decidable (NoClearBeforeEntry s a)
  | .enter _ => inferInstanceAs (Decidable (∀ _, _ → _ → _ → _))
  | .leave _ => inferInstanceAs (Decidable (∀ _, _ → _))
  | .test _ _ | .timer _ | .remove _ | .raise | .wakeup | .lower => isTrue trivial

/-- The first thread is suspended and woken, and leaves before the second one tests the condition; a
wake-up then falls in front of the second one's suspension. -/
def orderedRun : List (Act (Fin 2)) :=
  [.test 0 (-1), .enter 0, .raise, .wakeup, .leave 0, .lower, .test 1 (-1), .raise, .wakeup, .enter 1]

theorem wqueue_keeps_wakeups_run :
    ((exec step start orderedRun).map fun s => (s.missed 1, s.place 1)) = some (true, .leaving) ∧
      ∀ s', exec step start orderedRun = some s' → NotLost s' :=
  ⟨by decide, fun _ hrun => wqueue_keeps_wakeups orderedRun (by decide) hrun⟩

/-! ### A wake-up that is lost -/

theorem move_place_of_ne {t u : T} (hut : s.place u ≠ s.place t) (place : Place) :
    (s.move u place).place t = s.place t := by
  have htu : t ≠ u := fun he => hut (by rw [he])
  exact Function.update_of_ne htu place s.place

theorem suspended_step {t : T} (ht : s.place t = .suspended false) {a : Act T} (ha : a ≠ .wakeup)
    (hstep : step s a = some s') : s'.place t = .suspended false := by
  have hmove : ∀ (q : RtWqueue T) (missed : T → Bool) (u : T) (place : Place), s.place u ≠ .suspended false →
      ({ s with queue := q, missed := missed }.move u place).place t = .suspended false := by
    intro q missed u place hu
    rw [← ht] at hu ⊢
    exact @move_place_of_ne T _ { s with queue := q, missed := missed } t u hu place
  cases a with
  | test u tick =>
    simp only [step] at hstep
    split at hstep
    · next hu =>
      split at hstep
      · cases hstep
        exact ht
      · cases hstep
        exact hmove _ _ u _ (by rw [hu]; intro he; cases he)
    · cases hstep
  | enter u =>
    simp only [step] at hstep
    cases hu : s.place u with
    | tested tick =>
      rw [hu] at hstep
      cases hstep
      exact hmove _ _ u _ (by rw [hu]; intro he; cases he)
    | _ => simp [hu] at hstep
  | timer u =>
    simp only [step] at hstep
    split at hstep
    · next hu =>
      cases hstep
      exact hmove _ _ u _ (by rw [hu]; intro he; cases he)
    · cases hstep
  | leave u =>
    simp only [step] at hstep
    split at hstep
    · next hu =>
      cases hstep
      exact hmove _ _ u _ (by rw [hu]; intro he; cases he)
    · cases hstep
  | remove u =>
    simp only [step] at hstep
    split at hstep
    · next hu =>
      cases hstep
      exact hmove _ _ u _ (by rw [hu]; intro he; cases he)
    · cases hstep
  | raise =>
    cases hstep
    exact ht
  | wakeup => exact absurd rfl ha
  | lower =>
    cases hstep
    exact ht

theorem staysSuspended {t : T} (ht : s.place t = .suspended false) : StaysSuspended s t := fun _ _ hacts hrun =>
  ⟨false, exec_inv_of_forall (fun s => s.place t = .suspended false) (fun a => a ≠ .wakeup)
    (fun _ _ _ ht ha hstep => suspended_step ht ha hstep) ht hacts hrun⟩

/-- The wake-up resumes the first thread while the second one is in front of its suspension; the
first one clears the flag on its way out. -/
theorem wqueue_loses_wakeup :
    ¬∀ s', exec step (start : Sys (Fin 2))
      [.test 0 (-1), .enter 0, .test 1 (-1), .raise, .wakeup, .leave 0, .remove 0, .enter 1] = some s' → NotLost s' :=
  fun hall => hall _ rfl 1 rfl (staysSuspended rfl)

end RtThread.Drivers.WaitQueue
