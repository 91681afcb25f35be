import RtThread.Lib.Transition

/-!
# Work queues (`workqueue.c:50-142`)

The worker thread tests the list, suspends itself and takes an entry off the list in three separate
steps; a submitter inserts its work and resumes the worker in two, and `rt_thread_resume` tests the
state of the worker before it disables interrupts. Any number of threads and interrupts submit and
cancel. While a work function runs, the worker may wait for other things; it counts as suspended
only where it waits for work.
-/

namespace RtThread.Drivers.WorkQueue

open RtThread.Lib.Transition

/-- Where the worker thread stands in `_workqueue_thread_entry`. -/
inductive Worker (W : Type*) where
  /-- before the test of the list -/
  | testing
  /-- behind the test, before `rt_thread_suspend` -/
  | suspending
  | suspended
  /-- before the section that takes an entry off the list -/
  | dequeuing
  /-- behind this section, before the call of the work function -/
  | calling (work : W)
  | working (work : W)
  deriving DecidableEq, Repr

/-- Where a call of `_workqueue_submit_work` stands behind its section, when it has to resume the
worker. -/
inductive Submit where
  /-- before the test of `rt_thread_resume` -/
  | resuming
  /-- behind this test, which has found the worker suspended -/
  | inserting
  deriving DecidableEq, Repr

inductive Event (W : Type*) where
  | submitted (work : W)
  | cancelled (work : W)
  | called (work : W)
  deriving DecidableEq, Repr

/-- `struct rt_workqueue` with the worker, the submitters, and the history, the last event first.
When `dequeuedNothing` is set, the worker has taken the list head itself for an entry, and nothing is
known of what follows. -/
structure Sys (W T : Type*) where
  workList : List W
  workCurrent : Option W
  pending : W → Bool
  worker : Worker W
  submitter : T → Option Submit
  history : List (Event W)
  dequeuedNothing : Bool

/-- After `rt_workqueue_create`. -/
def start (W T : Type*) : Sys W T := ⟨[], none, fun _ => false, .testing, fun _ => none, [], false⟩

variable {W T : Type*} [DecidableEq W] [DecidableEq T]

/-- `_workqueue_submit_work` up to the end of its section (`workqueue.c:92-120`). -/
def submitWork (s : Sys W T) (t : T) (work : W) : Sys W T :=
  if s.pending work = true ∨ s.workCurrent = some work then s
  else
    { s with
      workList := s.workList.erase work ++ [work]
      pending := Function.update s.pending work true
      submitter := if s.workCurrent.isNone = true then Function.update s.submitter t (some .resuming) else s.submitter
      history := .submitted work :: s.history }

/-- `_workqueue_cancel_work` (`workqueue.c:127-142`). -/
def cancelWork (s : Sys W T) (work : W) : Sys W T :=
  if s.workCurrent = some work then s
  else
    { s with
      workList := s.workList.erase work
      pending := Function.update s.pending work false
      history := .cancelled work :: s.history }

/-- The first section of the worker's loop (`workqueue.c:70-75`). -/
def dequeue (s : Sys W T) : Sys W T :=
  match s.workList with
  | [] => { s with dequeuedNothing := true }
  | work :: rest =>
    { s with
      workList := rest
      workCurrent := some work
      pending := Function.update s.pending work false
      worker := .calling work }

inductive Act (W T : Type*) where
  | submit (t : T) (work : W)
  | resume (t : T)
  | insert (t : T)
  | cancel (work : W)
  | test
  | suspend
  | dequeue
  | call
  | finish
  deriving DecidableEq, Repr

def step (s : Sys W T) (a : Act W T) : Option (Sys W T) :=
  if s.dequeuedNothing = true then none
  else
    match a with
    | .submit t work => if s.submitter t = none then some (submitWork s t work) else none
    | .resume t =>
      if s.submitter t = some .resuming then
        some { s with submitter := Function.update s.submitter t (if s.worker = .suspended then some .inserting else none) }
      else none
    | .insert t =>
      if s.submitter t = some .inserting then
        some { s with
          worker := if s.worker = .suspended then .dequeuing else s.worker
          submitter := Function.update s.submitter t none }
      else none
    | .cancel work => some (cancelWork s work)
    | .test =>
      if s.worker = .testing then some { s with worker := if s.workList = [] then .suspending else .dequeuing } else none
    | .suspend => if s.worker = .suspending then some { s with worker := .suspended } else none
    | .dequeue => if s.worker = .dequeuing then some (dequeue s) else none
    | .call =>
      match s.worker with
      | .calling work => some { s with worker := .working work, history := .called work :: s.history }
      | _ => none
    | .finish =>
      match s.worker with
      | .working _ => some { s with worker := .testing, workCurrent := none }
      | _ => none

/-- The work was submitted, and since then neither cancelled nor done. -/
def outstanding (work : W) : List (Event W) → Bool
  | [] => false
  | .submitted w :: h => decide (w = work) || outstanding work h
  | .cancelled w :: h => !decide (w = work) && outstanding work h
  | .called w :: h => !decide (w = work) && outstanding work h

/-- Every call of a work function is for a submission of its own. -/
def CallsMatch : List (Event W) → Prop
  | [] => True
  | .called work :: h => outstanding work h = true ∧ CallsMatch h
  | _ :: h => CallsMatch h

theorem step_cases {s s' : Sys W T} {a : Act W T} (h : step s a = some s') :
    s.dequeuedNothing = false ∧
    ((∃ t work, a = .submit t work ∧ s.submitter t = none ∧ s' = submitWork s t work) ∨
    (∃ t, a = .resume t ∧ s.submitter t = some .resuming ∧ s' = { s with
      submitter := Function.update s.submitter t (if s.worker = .suspended then some .inserting else none) }) ∨
    (∃ t, a = .insert t ∧ s.submitter t = some .inserting ∧ s' = { s with
      worker := if s.worker = .suspended then .dequeuing else s.worker
      submitter := Function.update s.submitter t none }) ∨
    (∃ work, a = .cancel work ∧ s' = cancelWork s work) ∨
    (a = .test ∧ s.worker = .testing ∧
      s' = { s with worker := if s.workList = [] then .suspending else .dequeuing }) ∨
    (a = .suspend ∧ s.worker = .suspending ∧ s' = { s with worker := .suspended }) ∨
    (a = .dequeue ∧ s.worker = .dequeuing ∧ s' = dequeue s) ∨
    (∃ work, a = .call ∧ s.worker = .calling work ∧
      s' = { s with worker := .working work, history := .called work :: s.history }) ∨
    (∃ work, a = .finish ∧ s.worker = .working work ∧ s' = { s with worker := .testing, workCurrent := none })) := by
  unfold step at h
  split at h
  · cases h
  · rename_i hnothing
    refine ⟨Bool.eq_false_of_not_eq_true hnothing, ?_⟩
    cases a with
    | submit t work =>
      obtain ⟨hf, he⟩ := Option.ite_none_right_eq_some.mp h
      exact Or.inl ⟨t, work, rfl, hf, (Option.some.inj he).symm⟩
    | resume t =>
      obtain ⟨hf, he⟩ := Option.ite_none_right_eq_some.mp h
      exact Or.inr (Or.inl ⟨t, rfl, hf, (Option.some.inj he).symm⟩)
    | insert t =>
      obtain ⟨hf, he⟩ := Option.ite_none_right_eq_some.mp h
      exact Or.inr (Or.inr (Or.inl ⟨t, rfl, hf, (Option.some.inj he).symm⟩))
    | cancel work =>
      exact Or.inr (Or.inr (Or.inr (Or.inl ⟨work, rfl, (Option.some.inj h).symm⟩)))
    | test =>
      obtain ⟨hw, he⟩ := Option.ite_none_right_eq_some.mp h
      exact Or.inr (Or.inr (Or.inr (Or.inr (Or.inl ⟨rfl, hw, (Option.some.inj he).symm⟩))))
    | suspend =>
      obtain ⟨hw, he⟩ := Option.ite_none_right_eq_some.mp h
      exact Or.inr (Or.inr (Or.inr (Or.inr (Or.inr (Or.inl ⟨rfl, hw, (Option.some.inj he).symm⟩)))))
    | dequeue =>
      obtain ⟨hw, he⟩ := Option.ite_none_right_eq_some.mp h
      exact Or.inr (Or.inr (Or.inr (Or.inr (Or.inr (Or.inr (Or.inl ⟨rfl, hw, (Option.some.inj he).symm⟩))))))
    | call =>
      simp only at h
      split at h
      · rename_i work hw
        exact Or.inr (Or.inr (Or.inr (Or.inr (Or.inr (Or.inr (Or.inr (Or.inl
          ⟨work, rfl, hw, (Option.some.inj h).symm⟩)))))))
      · cases h
    | finish =>
      simp only at h
      split at h
      · rename_i work hw
        exact Or.inr (Or.inr (Or.inr (Or.inr (Or.inr (Or.inr (Or.inr (Or.inr
          ⟨work, rfl, hw, (Option.some.inj h).symm⟩)))))))
      · cases h

/-! ### The list, the flags and the history -/

/-- The work in the hands of the worker. -/
def Worker.current : Worker W → Option W
  | .calling work => some work
  | .working work => some work
  | _ => none

/-- `work_current`, the pending flags and the history agree with the list and the worker. -/
structure Books (s : Sys W T) : Prop where
  nodup : s.workList.Nodup
  pending_iff : ∀ work, s.pending work = true ↔ work ∈ s.workList
  current_eq : s.workCurrent = s.worker.current
  not_listed : ∀ work, s.workCurrent = some work → work ∉ s.workList
  outstanding_iff : ∀ work, outstanding work s.history = true ↔ work ∈ s.workList ∨ s.worker = .calling work
  calls : CallsMatch s.history

variable {s s' : Sys W T} {work : W} {t : T}

theorem Books.submit (h : Books s) : Books (submitWork s t work) := by
  unfold submitWork
  split
  · exact h
  · rename_i hfree
    obtain ⟨hpending, hcurrent⟩ := not_or.mp hfree
    have hnot : work ∉ s.workList := fun hm => hpending ((h.pending_iff work).mpr hm)
    have hlist : s.workList.erase work ++ [work] = s.workList ++ [work] := by rw [List.erase_of_not_mem hnot]
    refine ⟨?_, fun w => ?_, h.current_eq, fun w hw hm => ?_, fun w => ?_, h.calls⟩ <;> simp only [hlist] at *
    · exact List.nodup_append.mpr ⟨h.nodup, List.nodup_singleton work, fun a ha b hb hab =>
        hnot (List.mem_singleton.mp hb ▸ hab ▸ ha)⟩
    · by_cases he : w = work
      · simp [he]
      · rw [Function.update_of_ne he, h.pending_iff]
        simp [he]
    · rcases List.mem_append.mp hm with hm | hm
      · exact h.not_listed w hw hm
      · exact hcurrent (List.mem_singleton.mp hm ▸ hw)
    · have hout := h.outstanding_iff w
      by_cases he : work = w
      · simp [outstanding, he]
      · simp only [outstanding, decide_eq_false he, Bool.false_or, hout, List.mem_append, List.mem_singleton]
        have he' : ¬w = work := fun heq => he heq.symm
        simp [he']

omit [DecidableEq T] in
theorem Books.cancel (h : Books s) : Books (cancelWork s work) := by
  unfold cancelWork
  split
  · exact h
  · rename_i hcurrent
    have hcalling : s.worker ≠ .calling work := fun hw => by
      rw [h.current_eq, hw] at hcurrent
      exact hcurrent rfl
    refine ⟨h.nodup.erase work, fun w => ?_, h.current_eq, fun w hw hm => ?_, fun w => ?_, h.calls⟩ <;> simp only at *
    · by_cases he : w = work
      · simp [he, h.nodup.mem_erase_iff]
      · rw [Function.update_of_ne he, h.pending_iff, h.nodup.mem_erase_iff]
        simp [he]
    · exact h.not_listed w hw (List.mem_of_mem_erase hm)
    · have hout := h.outstanding_iff w
      by_cases he : work = w
      · subst he
        simp [outstanding, h.nodup.mem_erase_iff, hcalling]
      · have he' : ¬w = work := fun heq => he heq.symm
        simp [outstanding, he, he', hout, h.nodup.mem_erase_iff]

omit [DecidableEq T] in
theorem dequeue_nil (h : s.workList = []) : dequeue s = { s with dequeuedNothing := true } := by
  simp only [dequeue, h]

omit [DecidableEq T] in
theorem dequeue_cons {rest : List W} (h : s.workList = work :: rest) :
    dequeue s = { s with
      workList := rest
      workCurrent := some work
      pending := Function.update s.pending work false
      worker := .calling work } := by
  simp only [dequeue, h]

omit [DecidableEq T] in
theorem Books.dequeue (h : Books s) (hw : s.worker = .dequeuing) : Books (dequeue s) := by
  cases hlist : s.workList with
  | nil =>
    rw [dequeue_nil hlist]
    exact ⟨h.nodup, h.pending_iff, h.current_eq, h.not_listed, h.outstanding_iff, h.calls⟩
  | cons w rest =>
    rw [dequeue_cons hlist]
    have hnodup := h.nodup
    have hpending := h.pending_iff
    have hout := h.outstanding_iff
    rw [hlist] at hnodup hpending hout
    obtain ⟨hnot, hrest⟩ := List.nodup_cons.mp hnodup
    refine ⟨hrest, fun v => ?_, rfl, fun v hv hm => ?_, fun v => ?_, h.calls⟩ <;> simp only at *
    · by_cases he : v = w
      · simp [he, hnot]
      · rw [Function.update_of_ne he, hpending]
        simp [he]
    · cases hv
      exact hnot hm
    · rw [hout, hw]
      by_cases he : v = w
      · simp [he]
      · have he' : ¬w = v := fun heq => he heq.symm
        simp [he, he']

omit [DecidableEq T] in
theorem Books.call (h : Books s) (hw : s.worker = .calling work) :
    Books { s with worker := .working work, history := .called work :: s.history } := by
  have hcurrent : s.workCurrent = some work := by
    rw [h.current_eq, hw]
    rfl
  have hnot := h.not_listed work hcurrent
  refine ⟨h.nodup, h.pending_iff, hcurrent, h.not_listed, fun v => ?_, (h.outstanding_iff work).mpr (Or.inr hw), h.calls⟩
  have hout := h.outstanding_iff v
  by_cases he : work = v
  · subst he
    simp [outstanding, hnot]
  · simp [outstanding, he, hout, hw]

omit [DecidableEq T] in
theorem Books.move {worker : Worker W} {submitter : T → Option Submit} (h : Books s) (hold : s.worker.current = none)
    (hnew : worker.current = none) : Books { s with worker := worker, submitter := submitter } := by
  have hcalling {w : Worker W} (hw : w.current = none) (v : W) : w ≠ .calling v := fun he => by
    rw [he] at hw
    cases hw
  refine ⟨h.nodup, h.pending_iff, ?_, h.not_listed, fun v => ?_, h.calls⟩
  · simp only
    rw [h.current_eq, hold, hnew]
  · have hout := h.outstanding_iff v
    simp only [hcalling hold v, hcalling hnew v, or_false] at hout ⊢
    exact hout

omit [DecidableEq T] in
theorem Books.finish (h : Books s) (hw : s.worker = .working work) :
    Books { s with worker := .testing, workCurrent := none } := by
  refine ⟨h.nodup, h.pending_iff, rfl, fun v hv => (by cases hv), fun v => ?_, h.calls⟩
  have hout := h.outstanding_iff v
  simp only [hw] at hout ⊢
  exact hout.trans (by simp)

theorem step_books {a : Act W T} (h : Books s) (hstep : step s a = some s') : Books s' := by
  obtain ⟨-, ⟨t, work, -, -, rfl⟩ | ⟨t, -, -, rfl⟩ | ⟨t, -, -, rfl⟩ | ⟨work, -, rfl⟩ | ⟨-, hw, rfl⟩ | ⟨-, hw, rfl⟩ |
    ⟨-, hw, rfl⟩ | ⟨work, -, hw, rfl⟩ | ⟨work, -, hw, rfl⟩⟩ := step_cases hstep
  · exact h.submit
  · exact ⟨h.nodup, h.pending_iff, h.current_eq, h.not_listed, h.outstanding_iff, h.calls⟩
  · by_cases hs : s.worker = .suspended
    · rw [if_pos hs]
      exact h.move (by rw [hs]; rfl) rfl
    · rw [if_neg hs]
      exact ⟨h.nodup, h.pending_iff, h.current_eq, h.not_listed, h.outstanding_iff, h.calls⟩
  · exact h.cancel
  · refine @Books.move W T _ s _ s.submitter h (by rw [hw]; rfl) ?_
    split <;> rfl
  · exact @Books.move W T _ s _ s.submitter h (by rw [hw]; rfl) rfl
  · exact h.dequeue hw
  · exact h.call hw
  · exact h.finish hw

/-! ### An entry is there when the worker takes one -/

/-- The worker has never taken an entry off an empty list, and every call of a work function is for
a submission that was not cancelled and not yet done. -/
structure Served (s : Sys W T) : Prop where
  found : s.dequeuedNothing = false
  calls : CallsMatch s.history

/-- The worker is not resumed while the list is empty, and the only entry is not cancelled when the
worker is about to take it. -/
def Supplied (s : Sys W T) : Act W T → Prop
  | .cancel work => s.worker = .dequeuing → s.workList ≠ [work]
  | .insert _ => s.worker = .suspended → s.workList ≠ []
  | _ => True

instance Supplied.decidable (s : Sys W T) : (a : Act W T) → Decidable (Supplied s a)
  | .cancel work => inferInstanceAs (Decidable (s.worker = .dequeuing → s.workList ≠ [work]))
  | .insert _ => inferInstanceAs (Decidable (s.worker = .suspended → s.workList ≠ []))
  | .submit _ _ | .resume _ | .test | .suspend | .dequeue | .call | .finish => isTrue trivial

structure Ready (s : Sys W T) : Prop where
  books : Books s
  found : s.dequeuedNothing = false
  listed : s.worker = .dequeuing → s.workList ≠ []

theorem submit_workList_ne_nil (h : s.workList ≠ []) : (submitWork s t work).workList ≠ [] := by
  unfold submitWork
  split
  · exact h
  · simp

theorem submit_worker : (submitWork s t work).worker = s.worker := by
  unfold submitWork
  split <;> rfl

theorem submit_nothing : (submitWork s t work).dequeuedNothing = s.dequeuedNothing := by
  unfold submitWork
  split <;> rfl

omit [DecidableEq T] in
theorem erase_ne_nil (h : s.workList ≠ []) (hne : s.workList ≠ [work]) : s.workList.erase work ≠ [] := by
  intro he
  rcases List.erase_eq_nil_iff.mp he with hl | hl
  · exact h hl
  · exact hne hl

theorem step_ready {a : Act W T} (h : Ready s) (hsup : Supplied s a) (hstep : step s a = some s') : Ready s' := by
  have hb := step_books h.books hstep
  suffices hrest : s'.dequeuedNothing = false ∧ (s'.worker = .dequeuing → s'.workList ≠ []) from ⟨hb, hrest.1, hrest.2⟩
  obtain ⟨-, ⟨t, work, -, -, rfl⟩ | ⟨t, -, -, rfl⟩ | ⟨t, rfl, -, rfl⟩ | ⟨work, rfl, rfl⟩ | ⟨-, hw, rfl⟩ | ⟨-, hw, rfl⟩ |
    ⟨-, hw, rfl⟩ | ⟨work, -, hw, rfl⟩ | ⟨work, -, hw, rfl⟩⟩ := step_cases hstep
  · refine ⟨submit_nothing.trans h.found, fun hw => submit_workList_ne_nil (h.listed ?_)⟩
    rwa [submit_worker] at hw
  · exact ⟨h.found, h.listed⟩
  · refine ⟨h.found, fun hw => ?_⟩
    by_cases hs : s.worker = .suspended
    · exact hsup hs
    · simp only [if_neg hs] at hw
      exact h.listed hw
  · unfold cancelWork
    split
    · exact ⟨h.found, h.listed⟩
    · exact ⟨h.found, fun hw => erase_ne_nil (h.listed hw) (hsup hw)⟩
  · refine ⟨h.found, fun hd hnil => ?_⟩
    simp only [if_pos hnil] at hd
    cases hd
  · exact ⟨h.found, fun hd => (by cases hd)⟩
  · cases hlist : s.workList with
    | nil => exact absurd hlist (h.listed hw)
    | cons w rest =>
      rw [dequeue_cons hlist]
      exact ⟨h.found, fun hd => (by cases hd)⟩
  · exact ⟨h.found, fun hd => (by cases hd)⟩
  · exact ⟨h.found, fun hd => (by cases hd)⟩

omit [DecidableEq T] in
theorem start_books : Books (start W T) :=
  ⟨List.nodup_nil, fun _ => by simp [start], rfl, fun _ _ => List.not_mem_nil, fun _ => by simp [start, outstanding], trivial⟩

/-- In every run in which the worker is resumed only for an entry, and no one cancels the only entry
before it is taken, the worker finds an entry, and every submission is served at most once. -/
theorem worker_served {acts : List (Act W T)} {s : Sys W T} (hsup : AllSteps step Supplied (start W T) acts)
    (hrun : exec step (start W T) acts = some s) : Served s := by
  have h := exec_inv_of_allSteps Ready Supplied (fun _ _ _ h hC hstep => step_ready h hC hstep)
    ⟨start_books, rfl, fun h => (by cases h)⟩ hsup hrun
  exact ⟨h.found, h.books.calls⟩

/-- Two works, of which the first is cancelled while the worker is about to take it. -/
def cancelledFirst : List (Act ℕ ℕ) :=
  [.test, .suspend, .submit 0 7, .resume 0, .insert 0, .submit 1 8, .cancel 7, .dequeue, .call, .resume 1, .finish,
    .test]

theorem worker_served_cancelledFirst :
    ∃ s, exec step (start ℕ ℕ) cancelledFirst = some s ∧
      s.history = [.called 8, .cancelled 7, .submitted 8, .submitted 7] ∧ Served s :=
  ⟨_, rfl, rfl, @worker_served ℕ ℕ _ _ cancelledFirst _ (by decide) rfl⟩

/-- A thread that is preferred to the worker submits a work and cancels it again before the worker
runs. -/
theorem worker_takes_nothing :
    ∃ s, exec step (start ℕ ℕ) [.test, .suspend, .submit 0 7, .resume 0, .insert 0, .cancel 7, .dequeue] = some s ∧
      s.workList = [] ∧ ¬Served s := by
  refine ⟨_, rfl, rfl, fun h => ?_⟩
  exact absurd h.found (by decide)

/-! ### No wake-up is lost -/

/-- When no submission is under way, a worker that is suspended has nothing to do. -/
def Awake (s : Sys W T) : Prop := (∀ t, s.submitter t = none) → s.workList ≠ [] → s.worker ≠ .suspended

/-- `rt_thread_resume` does not come between the worker's test of the list and its suspension. -/
def NotBetween (s : Sys W T) : Act W T → Prop
  | .resume _ => s.worker ≠ .suspending
  | _ => True

instance NotBetween.decidable (s : Sys W T) : (a : Act W T) → Decidable (NotBetween s a)
  | .resume _ => inferInstanceAs (Decidable (s.worker ≠ .suspending))
  | .submit _ _ | .insert _ | .cancel _ | .test | .suspend | .dequeue | .call | .finish => isTrue trivial

/-- The entries that the worker has not seen have a submitter that has not yet looked at it, or, when
it is suspended, one that is still to resume it. -/
structure Announced (s : Sys W T) : Prop where
  books : Books s
  suspending : s.worker = .suspending → s.workList ≠ [] → ∃ t, s.submitter t = some .resuming
  suspended : s.worker = .suspended → s.workList ≠ [] → ∃ t, s.submitter t ≠ none

theorem submit_announced (h : Announced s) : Announced (submitWork s t work) := by
  have hb := @Books.submit W T _ _ s work t h.books
  have hcurrent := h.books.current_eq
  revert hb
  unfold submitWork
  split
  · exact fun _ => h
  · intro hb
    have hresuming (hw : s.worker.current = none) : (if s.workCurrent.isNone = true then
        Function.update s.submitter t (some .resuming) else s.submitter) t = some .resuming := by
      simp [hcurrent, hw]
    refine ⟨hb, fun hw _ => ⟨t, hresuming ?_⟩, fun hw _ => ⟨t, ?_⟩⟩
    · simp only at hw
      rw [hw]
      rfl
    · simp only at hw ⊢
      rw [hresuming (by rw [hw]; rfl)]
      exact Option.some_ne_none _

theorem step_announced {a : Act W T} (h : Announced s) (hnot : NotBetween s a) (hstep : step s a = some s') :
    Announced s' := by
  have hb := step_books h.books hstep
  obtain ⟨-, ⟨t, work, -, -, rfl⟩ | ⟨t, rfl, hs, rfl⟩ | ⟨t, -, hs, rfl⟩ | ⟨work, -, rfl⟩ | ⟨-, hw, rfl⟩ | ⟨-, hw, rfl⟩ |
    ⟨-, hw, rfl⟩ | ⟨work, -, hw, rfl⟩ | ⟨work, -, hw, rfl⟩⟩ := step_cases hstep
  · exact submit_announced h
  · -- the submitter looks at the worker
    refine ⟨hb, fun hw => absurd hw hnot, fun hw _ => ⟨t, ?_⟩⟩
    simp only at hw ⊢
    rw [if_pos hw, Function.update_self]
    exact Option.some_ne_none _
  · by_cases hsusp : s.worker = .suspended
    · refine ⟨hb, fun hw => ?_, fun hw => ?_⟩ <;> simp only [if_pos hsusp] at hw <;> cases hw
    · refine ⟨hb, fun hw hlist => ?_, fun hw => ?_⟩ <;> simp only [if_neg hsusp] at hw
      · -- the one who resumes had found the worker suspended; another submitter brought the entry
        obtain ⟨t', ht'⟩ := h.suspending hw hlist
        have hne : t' ≠ t := fun he => by rw [he, hs] at ht'; cases ht'
        refine ⟨t', ?_⟩
        simp only
        rw [Function.update_of_ne hne]
        exact ht'
      · exact absurd hw hsusp
  · have hsub (hl : (cancelWork s work).workList ≠ []) : s.workList ≠ [] := by
      intro hnil
      apply hl
      unfold cancelWork
      split
      · exact hnil
      · simp [hnil]
    have hworker : (cancelWork s work).worker = s.worker := by unfold cancelWork; split <;> rfl
    have hsubmitter : (cancelWork s work).submitter = s.submitter := by unfold cancelWork; split <;> rfl
    refine ⟨hb, fun hw hl => ?_, fun hw hl => ?_⟩ <;> rw [hworker] at hw <;> rw [hsubmitter]
    · exact h.suspending hw (hsub hl)
    · exact h.suspended hw (hsub hl)
  · refine ⟨hb, fun hd hl => ?_, fun hd => ?_⟩
    · simp only [if_neg hl] at hd
      cases hd
    · simp only at hd
      split at hd <;> cases hd
  · refine ⟨hb, fun hd => (by cases hd), fun _ hl => ?_⟩
    obtain ⟨t, ht⟩ := h.suspending hw hl
    exact ⟨t, by rw [ht]; exact Option.some_ne_none _⟩
  · cases hlist : s.workList with
    | nil =>
      rw [dequeue_nil hlist] at hb ⊢
      refine ⟨hb, fun hd => ?_, fun hd => ?_⟩ <;> simp only [hw] at hd <;> cases hd
    | cons w rest =>
      rw [dequeue_cons hlist] at hb ⊢
      exact ⟨hb, fun hd => (by cases hd), fun hd => (by cases hd)⟩
  · exact ⟨hb, fun hd => (by cases hd), fun hd => (by cases hd)⟩
  · exact ⟨hb, fun hd => (by cases hd), fun hd => (by cases hd)⟩

/-- In every run in which no submitter looks at the worker between the worker's test of the list and
its suspension, no wake-up is lost. -/
theorem worker_awake {acts : List (Act W T)} {s : Sys W T} (hnot : AllSteps step NotBetween (start W T) acts)
    (hrun : exec step (start W T) acts = some s) : Awake s := by
  have h := exec_inv_of_allSteps Announced NotBetween (fun _ _ _ h hC hstep => step_announced h hC hstep)
    ⟨start_books, fun h => (by cases h), fun h => (by cases h)⟩ hnot hrun
  intro hidle hlist hsusp
  obtain ⟨t, ht⟩ := h.suspended hsusp hlist
  exact ht (hidle t)

/-- The work arrives between the worker's test and its suspension, and the submitter resumes it
after that. -/
theorem worker_awake_inTime :
    ∃ s, exec step (start ℕ ℕ) [.test, .submit 0 7, .suspend, .resume 0, .insert 0] = some s ∧
      s.workList = [7] ∧ s.worker = .dequeuing ∧ Awake s :=
  ⟨_, rfl, rfl, rfl, @worker_awake ℕ ℕ _ _ [.test, .submit 0 7, .suspend, .resume 0, .insert 0] _ (by decide) rfl⟩

/-- The whole submission comes between the worker's test and its suspension. -/
theorem wakeup_lost :
    ∃ s, exec step (start ℕ ℕ) [.test, .submit 0 7, .resume 0, .suspend] = some s ∧ (∀ t, s.submitter t = none) ∧
      s.workList = [7] ∧ s.worker = .suspended ∧ ¬Awake s := by
  have hlost (s : Sys ℕ ℕ) (hidle : ∀ t, s.submitter t = none) (hlist : s.workList = [7])
      (hworker : s.worker = .suspended) : ¬Awake s := fun h => h hidle (by rw [hlist]; decide) hworker
  refine ⟨_, rfl, (fun hidle => ⟨hidle, rfl, rfl, hlost _ hidle rfl rfl⟩) fun t => ?_⟩
  by_cases he : t = 0
  · rw [he]
    rfl
  · simp [submitWork, start, he]

end RtThread.Drivers.WorkQueue
