import RtThread.Drivers.WorkItems

/-!
# Whole calls about one item (`workqueue.c:144-233`, `workqueue.c:337-350`)

`rt_workqueue_cancel_work` and `_workqueue_cancel_delayed_work` call each other; here they are functions
with fuel, called in any state that the system of `WorkItems` reaches. A call that has not ended within
its fuel has no result. `cancelDelayed_advances` and `cancelDelayed_descends` relate them to the sections
of a thread.
-/

namespace RtThread.Drivers.WorkItems

open RtThread.Lib.Transition RtThread.Drivers.WorkQueue

variable {W T : Type*} [DecidableEq W] [DecidableEq T]

inductive Result where
  | ok
  | busy
  | inval
  deriving DecidableEq, Repr

def Err.result : Err → Result
  | .ok => .ok
  | .busy => .busy

/-- "Detach from workqueue" (`workqueue.c:174-178`). -/
def Items.detach (s : Items W T) (work : W) : Items W T :=
  { s with
    attached := Function.update s.attached work false
    queue := { s.queue with pending := Function.update s.queue.pending work false } }

/-- The timer of a submitting item is stopped (`workqueue.c:166-170`). -/
def Items.stopTimer (s : Items W T) (work : W) : Items W T :=
  { s with
    timer := Function.update s.timer work false
    submitting := Function.update s.submitting work false }

mutual

/-- `rt_workqueue_cancel_work` (`workqueue.c:337-350`). -/
def rtWorkqueueCancelWork (delayed : W → Bool) : ℕ → Items W T → W → Option (Items W T × Result)
  | 0, _, _ => none
  | fuel + 1, s, work =>
    if delayed work = true then workqueueCancelDelayedWork delayed fuel s work
    else some ({ s with queue := cancelWork s.queue work }, if s.queue.workCurrent = some work then .busy else .ok)

/-- `_workqueue_cancel_delayed_work` (`workqueue.c:144-184`). -/
def workqueueCancelDelayedWork (delayed : W → Bool) : ℕ → Items W T → W → Option (Items W T × Result)
  | 0, _, _ => none
  | fuel + 1, s, work =>
    if s.attached work = true then
      if s.queue.pending work = true then
        (rtWorkqueueCancelWork delayed fuel s work).map fun r =>
          if r.2 = .ok then (r.1.detach work, .ok) else r
      else if s.submitting work = true then some ((s.stopTimer work).detach work, .ok)
      else some (s.detach work, .ok)
    else some (s, .inval)

end

/-- `_workqueue_submit_delayed_work` behind the cancellation (`workqueue.c:206-230`). -/
def attachDelayedWork (s : Items W T) (t : T) (work : W) (ticks : ℕ) : Items W T :=
  let s := { s with attached := Function.update s.attached work true }
  if ticks = 0 then { s with queue := submitWork s.queue t work }
  else { s with submitting := Function.update s.submitting work true, timer := Function.update s.timer work true }

/-- `_workqueue_submit_delayed_work` (`workqueue.c:186-233`). -/
def workqueueSubmitDelayedWork (delayed : W → Bool) (fuel : ℕ) (s : Items W T) (t : T) (work : W) (ticks : ℕ) :
    Option (Items W T × Result) :=
  if s.attached work = true then
    (workqueueCancelDelayedWork delayed fuel s work).map fun r =>
      if r.2 = .ok then (attachDelayedWork r.1 t work ticks, .ok) else r
  else some (attachDelayedWork s t work ticks, .ok)

/-- `rt_workqueue_submit_work` (`workqueue.c:293-306`). -/
def rtWorkqueueSubmitWork (delayed : W → Bool) (fuel : ℕ) (s : Items W T) (t : T) (work : W) (ticks : ℕ) :
    Option (Items W T × Result) :=
  if delayed work = true then workqueueSubmitDelayedWork delayed fuel s t work ticks
  else some ({ s with queue := submitWork s.queue t work }, (submitResult s.queue work).result)

variable {delayed : W → Bool} {s s' : Items W T} {work : W} {t : T} {r : Items W T × Result}

/-! ### Which calls end -/

omit [DecidableEq T] in
theorem cancel_pending (hdelayed : delayed work = true) (hattached : s.attached work = true)
    (hpending : s.queue.pending work = true) (fuel : ℕ) :
    rtWorkqueueCancelWork delayed fuel s work = none ∧ workqueueCancelDelayedWork delayed fuel s work = none := by
  induction fuel with
  | zero => exact ⟨rfl, rfl⟩
  | succ fuel ih =>
    constructor
    · rw [rtWorkqueueCancelWork, if_pos hdelayed, ih.2]
    · rw [workqueueCancelDelayedWork, if_pos hattached, if_pos hpending, ih.1, Option.map_none]

omit [DecidableEq T] in
theorem cancelDelayed_not_attached (hattached : s.attached work = false) (fuel : ℕ) :
    workqueueCancelDelayedWork delayed (fuel + 1) s work = some (s, .inval) := by
  rw [workqueueCancelDelayedWork, if_neg (by simp [hattached])]

omit [DecidableEq T] in
theorem cancelDelayed_not_pending (hattached : s.attached work = true) (hpending : s.queue.pending work = false)
    (fuel : ℕ) : workqueueCancelDelayedWork delayed (fuel + 1) s work =
      some (if s.submitting work = true then (s.stopTimer work).detach work else s.detach work, .ok) := by
  rw [workqueueCancelDelayedWork, if_pos hattached, if_neg (by simp [hpending])]
  split <;> rfl

omit [DecidableEq T] in
theorem cancelDelayed_cases {fuel : ℕ} (hdelayed : delayed work = true)
    (h : workqueueCancelDelayedWork delayed fuel s work = some r) :
    (s.attached work = false ∧ r = (s, .inval)) ∨
      (s.attached work = true ∧ s.queue.pending work = false ∧
        r = (if s.submitting work = true then (s.stopTimer work).detach work else s.detach work, .ok)) := by
  cases fuel with
  | zero => cases h
  | succ fuel =>
    cases hattached : s.attached work with
    | false =>
      rw [cancelDelayed_not_attached hattached] at h
      exact Or.inl ⟨rfl, (Option.some.inj h).symm⟩
    | true =>
      cases hpending : s.queue.pending work with
      | false =>
        rw [cancelDelayed_not_pending hattached hpending] at h
        exact Or.inr ⟨rfl, rfl, (Option.some.inj h).symm⟩
      | true =>
        rw [(cancel_pending hdelayed hattached hpending _).2] at h
        cases h

omit [DecidableEq T] in
theorem cancelled_workList : (if s.submitting work = true then (s.stopTimer work).detach work
    else s.detach work).queue.workList = s.queue.workList := by
  split <;> rfl

theorem nodup_submit (h : s.queue.workList.Nodup) : (submitWork s.queue t work).workList.Nodup := by
  unfold submitWork
  split
  · exact h
  · exact nodup_relinked h

theorem nodup_step {a : Act W T} (h : s.queue.workList.Nodup) (hstep : step delayed s a = some s') :
    s'.queue.workList.Nodup := by
  rcases step_cases hstep with ⟨t, work, -, he⟩ | ⟨-, he⟩ | ⟨t, work, depth, resubmit, -, -, he⟩ | ⟨-, he | ⟨t, work, he⟩ | ⟨b, hb⟩⟩
  · rw [he]
    unfold criticalWork
    split
    · exact h
    · exact nodup_relinked h
  · rw [he, cancelAllWork, foldl_erase_self]
    exact List.nodup_nil
  · rw [he]
    exact h
  · rw [he]
    exact h
  · rw [he]
    exact nodup_submit h
  · obtain ⟨-, ⟨t, work, -, -, he⟩ | ⟨t, -, -, he⟩ | ⟨t, -, -, he⟩ | ⟨work, -, he⟩ | ⟨-, -, he⟩ | ⟨-, -, he⟩ |
      ⟨-, -, he⟩ | ⟨work, -, -, he⟩ | ⟨work, -, -, he⟩⟩ := WorkQueue.step_cases hb <;> rw [he]
    · exact nodup_submit h
    · exact h
    · exact h
    · unfold cancelWork
      split
      · exact h
      · exact h.erase work
    · exact h
    · exact h
    · unfold dequeue
      split
      · exact h
      · rename_i hlist
        rw [hlist] at h
        exact (List.nodup_cons.mp h).2
    · exact h
    · exact h

/-! ### Every reachable state -/

/-- The cancellation of an item returns, and unlinks it when it reports success; and so does its submission return. -/
structure CancelEnds (delayed : W → Bool) (s : Items W T) (work : W) : Prop where
  cancel : ∃ fuel r, rtWorkqueueCancelWork delayed fuel s work = some r ∧ (r.2 = .ok → work ∉ r.1.queue.workList)
  submit : ∀ t ticks, ∃ fuel, (rtWorkqueueSubmitWork delayed fuel s t work ticks).isSome = true

/-- In every state of every run the calls about an item end, with the item unlinked, exactly when it is not a delayed
one that is attached to the queue and pending or linked. -/
theorem cancel_ends_iff (delayed : W → Bool) {as : List (Act W T)}
    (hrun : exec (step delayed) (initialised W T) as = some s) (work : W) : CancelEnds delayed s work ↔
      ¬(delayed work = true ∧ s.attached work = true ∧ (s.queue.pending work = true ∨ work ∈ s.queue.workList)) := by
  have hnodup : s.queue.workList.Nodup :=
    exec_inv (fun s => s.queue.workList.Nodup) (fun _ _ _ h hstep => nodup_step h hstep) List.nodup_nil hrun
  constructor
  · rintro ⟨⟨fuel, r, hr, hgone⟩, -⟩ ⟨hdelayed, hattached, hqueued⟩
    cases fuel with
    | zero => cases hr
    | succ fuel =>
      rw [rtWorkqueueCancelWork, if_pos hdelayed] at hr
      rcases cancelDelayed_cases hdelayed hr with ⟨hnot, -⟩ | ⟨-, hpending, rfl⟩
      · rw [hattached] at hnot
        cases hnot
      · -- the cancellation of an item that is linked and not pending leaves it linked
        have hlinked := hqueued.resolve_left (by simp [hpending])
        refine hgone rfl ?_
        rw [cancelled_workList]
        exact hlinked
  · intro hnot
    cases hdelayed : delayed work with
    | false =>
      refine ⟨⟨1, _, by rw [rtWorkqueueCancelWork, if_neg (by simp [hdelayed])], fun hok => ?_⟩, fun t ticks => ⟨0, ?_⟩⟩
      · simp only at hok
        split at hok
        · cases hok
        · rename_i hcurrent
          simp only [cancelWork, if_neg hcurrent]
          exact hnodup.not_mem_erase
      · rw [rtWorkqueueSubmitWork, if_neg (by simp [hdelayed])]
        rfl
    | true =>
      cases hattached : s.attached work with
      | false =>
        refine ⟨⟨2, _, by rw [rtWorkqueueCancelWork, if_pos hdelayed, cancelDelayed_not_attached hattached],
          fun hok => ?_⟩, fun t ticks => ⟨0, ?_⟩⟩
        · cases hok
        · rw [rtWorkqueueSubmitWork, if_pos hdelayed, workqueueSubmitDelayedWork, if_neg (by simp [hattached])]
          rfl
      | true =>
        obtain ⟨hpending, hlinked⟩ := not_or.mp fun hqueued => hnot ⟨hdelayed, hattached, hqueued⟩
        rw [Bool.not_eq_true] at hpending
        refine ⟨⟨2, _, by rw [rtWorkqueueCancelWork, if_pos hdelayed, cancelDelayed_not_pending hattached hpending],
          fun _ => ?_⟩, fun t ticks => ⟨1, ?_⟩⟩
        · rw [cancelled_workList]
          exact hlinked
        · rw [rtWorkqueueSubmitWork, if_pos hdelayed, workqueueSubmitDelayedWork, if_pos hattached,
            cancelDelayed_not_pending hattached hpending, Option.map_some]
          rfl

theorem cancel_ends_iff_submitting : ∃ s : Items Unit Unit,
    exec (step fun _ => true) (initialised Unit Unit) [.submitDelayed () () 5, .advance (), .advance (), .advance ()] = some s ∧
      CancelEnds (fun _ => true) s () := by
  refine ⟨_, rfl, (@cancel_ends_iff Unit Unit _ _ _ (fun _ => true)
    [.submitDelayed () () 5, .advance (), .advance (), .advance ()] rfl ()).mpr ?_⟩
  decide

/-- A delayed item is submitted without a delay; its cancellation before the worker runs never returns. -/
theorem cancel_never_ends : ∃ s : Items Unit Unit,
    exec (step fun _ => true) (initialised Unit Unit) [.submitDelayed () () 0, .advance (), .advance ()] = some s ∧
      ∀ fuel, rtWorkqueueCancelWork (fun _ => true) fuel s () = none :=
  ⟨_, rfl, fun fuel => (cancel_pending rfl rfl rfl fuel).1⟩

/-! ### The sections of the thread -/

omit [DecidableEq W] in
theorem goto_goto (p q : Place W) : (s.goto t p).goto t q = s.goto t q := by
  simp only [Items.goto, Function.update_idem]

omit [DecidableEq W] in
@[simp] theorem goto_thread (p : Place W) : (s.goto t p).thread t = p := Function.update_self ..

theorem step_advance (hnothing : s.queue.dequeuedNothing = false) : step delayed s (.advance t) = advance s t := by
  rw [step, if_neg (by simp [hnothing])]

theorem exec_advance {n : ℕ} {x : Option (Items W T)} (hnothing : s.queue.dequeuedNothing = false)
    (hadvance : advance s t = some s') (hrest : exec (step delayed) s' (List.replicate n (.advance t)) = x) :
    exec (step delayed) s (List.replicate (n + 1) (.advance t)) = x := by
  rw [List.replicate_succ, exec, step_advance hnothing, hadvance, Option.bind_some, hrest]

theorem cancelDelayed_advances {fuel : ℕ} (hnothing : s.queue.dequeuedNothing = false) (hdelayed : delayed work = true)
    (h : workqueueCancelDelayedWork delayed fuel s work = some r) (t : T) (depth : ℕ) (resubmit : Option ℕ) :
    ∃ n, exec (step delayed) (s.goto t (.entering work depth resubmit)) (List.replicate n (.advance t)) =
      some (r.1.goto t (if r.2 = .ok then cancelled work depth resubmit else .idle)) := by
  rcases cancelDelayed_cases hdelayed h with ⟨hattached, rfl⟩ | ⟨hattached, hpending, rfl⟩
  · refine ⟨1, @exec_advance _ _ _ _ _ _ (s.goto t .idle) _ _ _ hnothing ?_ rfl⟩
    simp only [advance, goto_thread, goto_goto]
    show some (s.goto t (if s.attached work = true then _ else _)) = _
    rw [hattached]
    rfl
  · have henter : advance (s.goto t (.entering work depth resubmit)) t = some (s.goto t (.testing work depth resubmit)) := by
      simp only [advance, goto_thread, goto_goto]
      show some (s.goto t (if s.attached work = true then _ else _)) = _
      rw [if_pos hattached]
    have htest : advance (s.goto t (.testing work depth resubmit)) t = some (s.goto t (.checking work depth resubmit)) := by
      simp only [advance, goto_thread, goto_goto]
      show some (s.goto t (if s.queue.pending work = true then _ else _)) = _
      rw [if_neg (by simp [hpending])]
    have hdetach : ∀ s₁ : Items W T, advance (s₁.goto t (.detaching work depth resubmit)) t =
        some ((s₁.detach work).goto t (cancelled work depth resubmit)) := by
      intro s₁
      simp only [advance, goto_thread]
      simp only [Items.goto, Items.detach, Function.update_idem]
    cases hsubmitting : s.submitting work with
    | false =>
      have hcheck : advance (s.goto t (.checking work depth resubmit)) t = some (s.goto t (.detaching work depth resubmit)) := by
        simp only [advance, goto_thread, goto_goto]
        show some (s.goto t (if s.submitting work = true then _ else _)) = _
        rw [if_neg (by simp [hsubmitting])]
      refine ⟨4, exec_advance hnothing henter (exec_advance hnothing htest (exec_advance hnothing hcheck
        (exec_advance hnothing (hdetach s) ?_)))⟩
      rfl
    | true =>
      have hcheck : advance (s.goto t (.checking work depth resubmit)) t = some (s.goto t (.stopping work depth resubmit)) := by
        simp only [advance, goto_thread, goto_goto]
        show some (s.goto t (if s.submitting work = true then _ else _)) = _
        rw [if_pos hsubmitting]
      have hstop : advance (s.goto t (.stopping work depth resubmit)) t =
          some ((s.stopTimer work).goto t (.detaching work depth resubmit)) := by
        simp only [advance, goto_thread]
        simp only [Items.goto, Items.stopTimer, Function.update_idem]
      refine ⟨5, exec_advance hnothing henter (exec_advance hnothing htest (exec_advance hnothing hcheck
        (exec_advance hnothing hstop (exec_advance hnothing (hdetach _) ?_))))⟩
      rfl

theorem cancelDelayed_descends (hnothing : s.queue.dequeuedNothing = false) (hattached : s.attached work = true)
    (hpending : s.queue.pending work = true) (t : T) (resubmit : Option ℕ) (n depth : ℕ) :
    exec (step delayed) (s.goto t (.entering work depth resubmit)) (List.replicate (2 * n) (.advance t)) =
      some (s.goto t (.entering work (depth + n) resubmit)) := by
  induction n generalizing depth with
  | zero => rfl
  | succ n ih =>
    have henter : advance (s.goto t (.entering work depth resubmit)) t = some (s.goto t (.testing work depth resubmit)) := by
      simp only [advance, goto_thread, goto_goto]
      show some (s.goto t (if s.attached work = true then _ else _)) = _
      rw [if_pos hattached]
    have htest : advance (s.goto t (.testing work depth resubmit)) t =
        some (s.goto t (.entering work (depth + 1) resubmit)) := by
      simp only [advance, goto_thread, goto_goto]
      show some (s.goto t (if s.queue.pending work = true then _ else _)) = _
      rw [if_pos hpending]
    have hrest := ih (depth + 1)
    rw [show depth + 1 + n = depth + (n + 1) by omega] at hrest
    exact exec_advance hnothing henter (exec_advance hnothing htest hrest)

end RtThread.Drivers.WorkItems
