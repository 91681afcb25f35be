import RtThread.Drivers.WorkQueue

/-!
# Work items and their pending flag (`workqueue.c`)

All the calls that link a work item into the list or unlink it, with delayed items, their timers and
the urgent ones of `rt_workqueue_critical_work`. Each section with interrupts disabled is a step of its
own; the sections of immediate items and of the worker are those of `WorkQueue`.
-/

namespace RtThread.Drivers.WorkItems

open RtThread.Lib.Transition RtThread.Drivers.WorkQueue

/-- Where a thread stands in a call about a delayed item. `depth` calls of
`_workqueue_cancel_delayed_work` wait for the one that is running, and `resubmit` is the time of the
submission that made the first of them. -/
inductive Place (W : Type*) where
  | idle
  /-- before the test of `work->workqueue` -/
  | entering (work : W) (depth : ℕ) (resubmit : Option ℕ)
  /-- before the test of the pending flag -/
  | testing (work : W) (depth : ℕ) (resubmit : Option ℕ)
  /-- before the test of the submitting flag -/
  | checking (work : W) (depth : ℕ) (resubmit : Option ℕ)
  | stopping (work : W) (depth : ℕ) (resubmit : Option ℕ)
  | detaching (work : W) (depth : ℕ) (resubmit : Option ℕ)
  | attaching (work : W) (ticks : ℕ)
  /-- before `_workqueue_submit_work` -/
  | submitting (work : W)
  | delaying (work : W)
  /-- before `rt_timer_start` -/
  | starting (work : W)
  deriving DecidableEq, Repr

/-- `attached work` when `work->workqueue` is the queue, and not `RT_NULL`. -/
structure Items (W T : Type*) where
  queue : Sys W T
  submitting : W → Bool
  attached : W → Bool
  timer : W → Bool
  thread : T → Place W

/-- A new queue, and items after `rt_work_init` and `rt_delayed_work_init`. -/
def initialised (W T : Type*) : Items W T :=
  ⟨WorkQueue.start W T, fun _ => false, fun _ => false, fun _ => false, fun _ => .idle⟩

variable {W T : Type*} [DecidableEq W] [DecidableEq T]

inductive Err where
  | ok
  | busy
  deriving DecidableEq, Repr

/-- The result of `_workqueue_submit_work`. -/
def submitResult (s : Sys W T) (work : W) : Err :=
  if s.pending work = true then .busy else if s.workCurrent = some work then .busy else .ok

/-- `rt_workqueue_critical_work` (`workqueue.c:308-336`) up to the end of its section. -/
def criticalWork (s : Sys W T) (t : T) (work : W) : Sys W T :=
  if s.workCurrent = some work then s
  else
    { s with
      workList := s.workList.erase work ++ [work]
      submitter := if s.workCurrent.isNone = true then Function.update s.submitter t (some .resuming) else s.submitter }

/-- `rt_workqueue_cancel_all_work` (`workqueue.c:375-389`). -/
def cancelAllWork (s : Sys W T) : Sys W T := { s with workList := s.workList.foldl List.erase s.workList }

/-- What follows a call of `_workqueue_cancel_delayed_work` that returns zero. -/
def cancelled (work : W) (depth : ℕ) (resubmit : Option ℕ) : Place W :=
  match depth, resubmit with
  | depth + 1, _ => .detaching work depth resubmit
  | 0, some ticks => .attaching work ticks
  | 0, none => .idle

def Items.goto (s : Items W T) (t : T) (place : Place W) : Items W T :=
  { s with thread := Function.update s.thread t place }

/-- The next section or test of the call that thread `t` has made about a delayed item: those of
`_workqueue_cancel_delayed_work` (`workqueue.c:144-184`), where `rt_workqueue_cancel_work` calls it once
more, and of `_workqueue_submit_delayed_work` (`workqueue.c:206-226`). Nothing is known of a
submission to the queue `RT_NULL`. -/
def advance (s : Items W T) (t : T) : Option (Items W T) :=
  match s.thread t with
  | .idle => none
  | .entering work depth resubmit =>
    some (s.goto t (if s.attached work = true then .testing work depth resubmit else .idle))
  | .testing work depth resubmit =>
    some (s.goto t (if s.queue.pending work = true then .entering work (depth + 1) resubmit
      else .checking work depth resubmit))
  | .checking work depth resubmit =>
    some (s.goto t (if s.submitting work = true then .stopping work depth resubmit
      else .detaching work depth resubmit))
  | .stopping work depth resubmit =>
    let s := { s with
      timer := Function.update s.timer work false
      submitting := Function.update s.submitting work false }
    some (s.goto t (.detaching work depth resubmit))
  | .detaching work depth resubmit =>
    let s := { s with
      attached := Function.update s.attached work false
      queue := { s.queue with pending := Function.update s.queue.pending work false } }
    some (s.goto t (cancelled work depth resubmit))
  | .attaching work ticks =>
    let s := { s with attached := Function.update s.attached work true }
    some (s.goto t (if ticks = 0 then .submitting work else .delaying work))
  | .submitting work =>
    if s.attached work = true then
      let s := { s with queue := submitWork s.queue t work }
      some (s.goto t .idle)
    else none
  | .delaying work =>
    let s := { s with
      submitting := Function.update s.submitting work true
      timer := Function.update s.timer work false }
    some (s.goto t (.starting work))
  | .starting work =>
    let s := { s with timer := Function.update s.timer work true }
    some (s.goto t .idle)

inductive Act (W T : Type*) where
  /-- a section of the worker, of a submission or of the cancellation of an immediate item -/
  | queue (a : WorkQueue.Act W T)
  | critical (t : T) (work : W)
  | cancelAll
  | submitDelayed (t : T) (work : W) (ticks : ℕ)
  | cancelDelayed (t : T) (work : W)
  | advance (t : T)
  /-- the first section of `_delayed_work_timeout_handler` -/
  | expire (t : T) (work : W)
  deriving DecidableEq, Repr

/-- The thread is in no call. -/
def Idle (s : Items W T) (t : T) : Prop := s.thread t = .idle ∧ s.queue.submitter t = none

instance (s : Items W T) (t : T) : Decidable (Idle s t) := instDecidableAnd

/-- The call is one for the type of the item. -/
def Immediate (delayed : W → Bool) (s : Items W T) : WorkQueue.Act W T → Prop
  | .submit t work => delayed work = false ∧ s.thread t = .idle
  | .cancel work => delayed work = false
  | _ => True

instance Immediate.decidable (delayed : W → Bool) (s : Items W T) : (a : WorkQueue.Act W T) →
    Decidable (Immediate delayed s a)
  | .submit t work => inferInstanceAs (Decidable (delayed work = false ∧ s.thread t = .idle))
  | .cancel work => inferInstanceAs (Decidable (delayed work = false))
  | .resume _ | .insert _ | .test | .suspend | .dequeue | .call | .finish => isTrue trivial

/-- A section of the system; `delayed` tells the items of `RT_WORK_TYPE_DELAYED`. -/
def step (delayed : W → Bool) (s : Items W T) (a : Act W T) : Option (Items W T) :=
  if s.queue.dequeuedNothing = true then none
  else
    match a with
    | .queue a =>
      if Immediate delayed s a then (WorkQueue.step s.queue a).map fun q => { s with queue := q } else none
    | .critical t work =>
      if Idle s t then some { s with queue := criticalWork s.queue t work } else none
    | .cancelAll => some { s with queue := cancelAllWork s.queue }
    | .submitDelayed t work ticks =>
      if Idle s t ∧ delayed work = true then
        some (s.goto t (if s.attached work = true then .entering work 0 (some ticks) else .attaching work ticks))
      else none
    | .cancelDelayed t work =>
      if Idle s t ∧ delayed work = true then some (s.goto t (.entering work 0 none)) else none
    | .advance t => advance s t
    | .expire t work =>
      if Idle s t ∧ s.timer work = true then
        let s := { s with
          timer := Function.update s.timer work false
          submitting := Function.update s.submitting work false }
        some (s.goto t (.submitting work))
      else none

/-! ### Flag and list -/

/-- The pending items are those in the list, and a submission is refused only for an item that is
queued or running. -/
structure Matches (s : Items W T) : Prop where
  pending_iff : ∀ work, s.queue.pending work = true ↔ work ∈ s.queue.workList
  busy : ∀ work, submitResult s.queue work = .busy → work ∈ s.queue.workList ∨ s.queue.workCurrent = some work

/-- An urgent item is already queued or is running; all work is cancelled when there is none; and the
end of `_workqueue_cancel_delayed_work` finds the item not pending. -/
def Kept (s : Items W T) : Act W T → Prop
  | .critical _ work => s.queue.workCurrent = some work ∨ s.queue.pending work = true
  | .cancelAll => s.queue.workList = []
  | .advance t => ∀ work depth resubmit, s.thread t = .detaching work depth resubmit → s.queue.pending work = false
  | _ => True

omit [DecidableEq T] in
theorem matches_iff {s : Items W T} :
    Matches s ↔ ∀ work, s.queue.pending work = true ↔ work ∈ s.queue.workList := by
  constructor
  · intro h
    exact h.pending_iff
  · intro h
    refine ⟨h, fun work hbusy => ?_⟩
    unfold submitResult at hbusy
    split at hbusy
    · rename_i hpending
      exact Or.inl ((h work).mp hpending)
    · split at hbusy
      · rename_i hcurrent
        exact Or.inr hcurrent
      · cases hbusy

variable {q q' : Sys W T} {work : W} {t : T}

/-- No item is linked twice, and the linked ones are pending. -/
structure Flagged (q : Sys W T) : Prop where
  nodup : q.workList.Nodup
  pending_iff : ∀ work, q.pending work = true ↔ work ∈ q.workList

theorem mem_relinked {l : List W} {w : W} (h : l.Nodup) : w ∈ l.erase work ++ [work] ↔ w ∈ l ∨ w = work := by
  rw [List.mem_append, h.mem_erase_iff, List.mem_singleton]
  by_cases he : w = work
  · simp [he]
  · simp [he]

theorem nodup_relinked {l : List W} (h : l.Nodup) : (l.erase work ++ [work]).Nodup := by
  refine List.nodup_append.mpr ⟨h.erase work, List.nodup_singleton work, fun a ha b hb hab => ?_⟩
  rw [h.mem_erase_iff] at ha
  exact ha.1 (hab.trans (List.mem_singleton.mp hb))

theorem Flagged.submit (h : Flagged q) : Flagged (submitWork q t work) := by
  unfold submitWork
  split
  · exact h
  · refine ⟨nodup_relinked h.nodup, fun w => ?_⟩
    simp only
    rw [mem_relinked h.nodup, ← h.pending_iff]
    by_cases he : w = work
    · simp [he]
    · rw [Function.update_of_ne he]
      simp [he]

omit [DecidableEq T] in
theorem Flagged.cancel (h : Flagged q) : Flagged (cancelWork q work) := by
  unfold cancelWork
  split
  · exact h
  · refine ⟨h.nodup.erase work, fun w => ?_⟩
    simp only
    rw [h.nodup.mem_erase_iff, ← h.pending_iff]
    by_cases he : w = work
    · simp [he]
    · rw [Function.update_of_ne he]
      simp [he]

omit [DecidableEq T] in
theorem Flagged.dequeue (h : Flagged q) : Flagged (dequeue q) := by
  cases hlist : q.workList with
  | nil =>
    rw [dequeue_nil hlist]
    exact ⟨h.nodup, h.pending_iff⟩
  | cons work rest =>
    rw [dequeue_cons hlist]
    have hnodup := h.nodup
    have hpending := h.pending_iff
    rw [hlist] at hnodup hpending
    obtain ⟨hnot, hrest⟩ := List.nodup_cons.mp hnodup
    refine ⟨hrest, fun w => ?_⟩
    simp only
    by_cases he : w = work
    · simp [he, hnot]
    · rw [Function.update_of_ne he, hpending]
      simp [he]

theorem Flagged.step {a : WorkQueue.Act W T} (h : Flagged q) (hstep : WorkQueue.step q a = some q') : Flagged q' := by
  obtain ⟨-, ⟨t, work, -, -, rfl⟩ | ⟨t, -, -, rfl⟩ | ⟨t, -, -, rfl⟩ | ⟨work, -, rfl⟩ | ⟨-, -, rfl⟩ | ⟨-, -, rfl⟩ |
    ⟨-, -, rfl⟩ | ⟨work, -, -, rfl⟩ | ⟨work, -, -, rfl⟩⟩ := WorkQueue.step_cases hstep
  · exact h.submit
  · exact ⟨h.nodup, h.pending_iff⟩
  · exact ⟨h.nodup, h.pending_iff⟩
  · exact h.cancel
  · exact ⟨h.nodup, h.pending_iff⟩
  · exact ⟨h.nodup, h.pending_iff⟩
  · exact h.dequeue
  · exact ⟨h.nodup, h.pending_iff⟩
  · exact ⟨h.nodup, h.pending_iff⟩

theorem Flagged.critical (h : Flagged q) : (criticalWork q t work).workList.Nodup ∧
    ((∀ w, (criticalWork q t work).pending w = true ↔ w ∈ (criticalWork q t work).workList) ↔
      q.workCurrent = some work ∨ q.pending work = true) := by
  unfold criticalWork
  split
  · rename_i hcurrent
    exact ⟨h.nodup, iff_of_true h.pending_iff (Or.inl hcurrent)⟩
  · rename_i hcurrent
    refine ⟨nodup_relinked h.nodup, ?_⟩
    simp only [mem_relinked h.nodup, hcurrent, false_or]
    constructor
    · intro hall
      exact (hall work).mpr (Or.inr rfl)
    · intro hpending w
      rw [h.pending_iff]
      constructor
      · exact Or.inl
      · rintro (hw | rfl)
        · exact hw
        · exact (h.pending_iff w).mp hpending

theorem foldl_erase_self (l : List W) : l.foldl List.erase l = [] := by
  induction l with
  | nil => rfl
  | cons work l ih => rw [List.foldl_cons, List.erase_cons_head, ih]

omit [DecidableEq T] in
theorem Flagged.cancelAll (h : Flagged q) : (cancelAllWork q).workList.Nodup ∧
    ((∀ w, (cancelAllWork q).pending w = true ↔ w ∈ (cancelAllWork q).workList) ↔ q.workList = []) := by
  unfold cancelAllWork
  rw [foldl_erase_self]
  refine ⟨List.nodup_nil, ?_⟩
  constructor
  · intro hall
    refine List.eq_nil_iff_forall_not_mem.mpr fun w hw => ?_
    exact List.not_mem_nil ((hall w).mp ((h.pending_iff w).mpr hw))
  · intro hnil w
    rw [h.pending_iff, hnil]

omit [DecidableEq T] in
theorem Flagged.detach (h : Flagged q) :
    (∀ w, Function.update q.pending work false w = true ↔ w ∈ q.workList) ↔ q.pending work = false := by
  constructor
  · intro hall
    have hwork := hall work
    rw [Function.update_self, ← h.pending_iff] at hwork
    exact Bool.eq_false_of_not_eq_true fun hpending => (by cases hwork.mpr hpending)
  · intro hpending w
    rw [← h.pending_iff, ← hpending, Function.update_eq_self]

/-! ### Runs -/

variable {s s' : Items W T} {delayed : W → Bool} {a : Act W T}

theorem advance_cases (h : advance s t = some s') :
    (∃ work depth resubmit, s.thread t = .detaching work depth resubmit ∧
      s'.queue = { s.queue with pending := Function.update s.queue.pending work false }) ∨
    ((∀ work depth resubmit, s.thread t ≠ .detaching work depth resubmit) ∧
      (s'.queue = s.queue ∨ ∃ work, s'.queue = submitWork s.queue t work)) := by
  unfold advance at h
  split at h
  · cases h
  all_goals rename_i hplace
  · cases h
    exact Or.inr ⟨by simp [hplace], Or.inl rfl⟩
  · cases h
    exact Or.inr ⟨by simp [hplace], Or.inl rfl⟩
  · cases h
    exact Or.inr ⟨by simp [hplace], Or.inl rfl⟩
  · cases h
    exact Or.inr ⟨by simp [hplace], Or.inl rfl⟩
  · cases h
    exact Or.inl ⟨_, _, _, hplace, rfl⟩
  · cases h
    exact Or.inr ⟨by simp [hplace], Or.inl rfl⟩
  · obtain ⟨-, he⟩ := Option.ite_none_right_eq_some.mp h
    cases he
    exact Or.inr ⟨by simp [hplace], Or.inr ⟨_, rfl⟩⟩
  · cases h
    exact Or.inr ⟨by simp [hplace], Or.inl rfl⟩
  · cases h
    exact Or.inr ⟨by simp [hplace], Or.inl rfl⟩

theorem step_cases (h : step delayed s a = some s') :
    (∃ t work, a = .critical t work ∧ s'.queue = criticalWork s.queue t work) ∨
    (a = .cancelAll ∧ s'.queue = cancelAllWork s.queue) ∨
    (∃ t work depth resubmit, a = .advance t ∧ s.thread t = .detaching work depth resubmit ∧
      s'.queue = { s.queue with pending := Function.update s.queue.pending work false }) ∨
    (Kept s a ∧ (s'.queue = s.queue ∨ (∃ t work, s'.queue = submitWork s.queue t work) ∨
      ∃ b, WorkQueue.step s.queue b = some s'.queue)) := by
  unfold step at h
  split at h
  · cases h
  · cases a with
    | queue b =>
      obtain ⟨-, he⟩ := Option.ite_none_right_eq_some.mp h
      obtain ⟨q, hq, rfl⟩ := Option.map_eq_some_iff.mp he
      exact Or.inr (Or.inr (Or.inr ⟨trivial, Or.inr (Or.inr ⟨b, hq⟩)⟩))
    | critical t work =>
      obtain ⟨-, he⟩ := Option.ite_none_right_eq_some.mp h
      cases he
      exact Or.inl ⟨t, work, rfl, rfl⟩
    | cancelAll =>
      cases h
      exact Or.inr (Or.inl ⟨rfl, rfl⟩)
    | submitDelayed t work ticks =>
      obtain ⟨-, he⟩ := Option.ite_none_right_eq_some.mp h
      cases he
      exact Or.inr (Or.inr (Or.inr ⟨trivial, Or.inl rfl⟩))
    | cancelDelayed t work =>
      obtain ⟨-, he⟩ := Option.ite_none_right_eq_some.mp h
      cases he
      exact Or.inr (Or.inr (Or.inr ⟨trivial, Or.inl rfl⟩))
    | advance t =>
      rcases advance_cases h with ⟨work, depth, resubmit, hplace, he⟩ | ⟨hplace, he | ⟨work, he⟩⟩
      · exact Or.inr (Or.inr (Or.inl ⟨t, work, depth, resubmit, rfl, hplace, he⟩))
      · exact Or.inr (Or.inr (Or.inr ⟨fun w d r hp => absurd hp (hplace w d r), Or.inl he⟩))
      · exact Or.inr (Or.inr (Or.inr ⟨fun w d r hp => absurd hp (hplace w d r), Or.inr (Or.inl ⟨t, work, he⟩)⟩))
    | expire t work =>
      obtain ⟨-, he⟩ := Option.ite_none_right_eq_some.mp h
      cases he
      exact Or.inr (Or.inr (Or.inr ⟨trivial, Or.inl rfl⟩))

theorem step_matches (h : Flagged s.queue) (hstep : step delayed s a = some s') :
    s'.queue.workList.Nodup ∧ (Matches s' ↔ Kept s a) := by
  rw [matches_iff]
  rcases step_cases hstep with ⟨t, work, rfl, he⟩ | ⟨rfl, he⟩ | ⟨t, work, depth, resubmit, rfl, hplace, he⟩ | ⟨hkept, hq⟩
  · rw [he]
    exact h.critical
  · rw [he]
    exact h.cancelAll
  · rw [he]
    refine ⟨h.nodup, h.detach.trans ?_⟩
    simp only [Kept, hplace, Place.detaching.injEq]
    constructor
    · rintro hpending _ _ _ ⟨rfl, -, -⟩
      exact hpending
    · intro hall
      exact hall work depth resubmit ⟨rfl, rfl, rfl⟩
  · have hflagged : Flagged s'.queue := by
      rcases hq with he | ⟨t, work, he⟩ | ⟨b, hb⟩
      · rw [he]
        exact h
      · rw [he]
        exact h.submit
      · exact h.step hb
    exact ⟨hflagged.nodup, iff_of_true hflagged.pending_iff hkept⟩

/-- In every run the pending flags match the list throughout exactly when no item is linked without its
flag, none is unlinked with it, and no pending item is detached from its queue. -/
theorem flags_match_iff (delayed : W → Bool) (as : List (Act W T)) :
    AllStates (step delayed) Matches (initialised W T) as ↔ AllSteps (step delayed) Kept (initialised W T) as := by
  have hflagged : ∀ s : Items W T, s.queue.workList.Nodup → Matches s → Flagged s.queue :=
    fun s hnodup hm => ⟨hnodup, hm.pending_iff⟩
  refine allStates_iff_allSteps_of_inv (fun s => s.queue.workList.Nodup) Matches Kept ?_ ?_ as List.nodup_nil ?_
  · intro s a s' hnodup hm hstep
    exact (step_matches (hflagged s hnodup hm) hstep).1
  · intro s a s' hnodup hm hstep
    exact (step_matches (hflagged s hnodup hm) hstep).2
  · refine matches_iff.mpr fun work => ?_
    exact iff_of_false (by exact Bool.false_ne_true) List.not_mem_nil

/-- An item is submitted and all work is cancelled; the item can never be submitted again, though it is
neither queued nor running. -/
theorem cancelAll_leaves_flag : ∃ s : Items Unit Unit,
    exec (step fun _ => false) (initialised Unit Unit) [.queue (.submit () ()), .queue (.resume ()), .cancelAll] = some s ∧
      s.queue.pending () = true ∧ s.queue.workList = [] ∧ s.queue.workCurrent = none ∧
      submitResult s.queue () = .busy :=
  ⟨_, rfl, rfl, rfl, rfl, rfl⟩

theorem critical_sets_no_flag : ∃ s : Items Unit Unit,
    exec (step fun _ => false) (initialised Unit Unit) [.critical () ()] = some s ∧
      s.queue.pending () = false ∧ s.queue.workList = [()] :=
  ⟨_, rfl, rfl, rfl⟩

end RtThread.Drivers.WorkItems
