import RtThread.Sched.SchedulerRuns

/-!
# Which thread `rt_schedule` picks (`scheduler.c:399-499`)

The thread that runs next comes from the front of the first ready list that is not empty, or is the current
thread. The state may be any in which the ready lists are right, also one that no run leads to.
-/

namespace RtThread.Sched.Scheduler

open RtThread.Lib.Transition RtThread.Sched.Bitmap RtThread.Ipc.Base

variable {T : Type*}

/-- The thread is ready, or is the current thread and still runs. -/
def Candidate (s : State T) (t : T) : Prop :=
  (s.thread t).stat = .ready ∨ s.currentThread = some t ∧ (s.thread t).stat = .running

/-- The current thread runs and has to leave the CPU to another one. -/
def Displaced (s : State T) (fromThread toThread : T) : Prop :=
  toThread ≠ fromThread ∧ (s.thread fromThread).stat = .running

variable [DecidableEq T]

instance (s : State T) (fromThread toThread : T) : Decidable (Displaced s fromThread toThread) :=
  inferInstanceAs (Decidable (_ ∧ _))

/-- The state of a thread after `toThread` took over from `fromThread`. -/
def statAfter (s : State T) (fromThread toThread t : T) : Stat :=
  if t = toThread then .running
  else if t = fromThread ∧ Displaced s fromThread toThread then .ready
  else (s.thread t).stat

/-- `rt_schedule` went from `s` to `s'` and gave the CPU of `fromThread` to `toThread`. -/
structure Picked (prioMax : ℕ) (s s' : State T) (fromThread toThread : T) : Prop where
  current : s'.currentThread = some toThread
  running : (s'.thread toThread).stat = .running
  unlisted : ∀ p, toThread ∉ s'.priorityTable p
  candidate : Candidate s toThread
  least : ∀ t, Candidate s t → (s'.thread toThread).currentPriority ≤ (s.thread t).currentPriority
  threads : ∀ t, s'.thread t = { s.thread t with stat := statAfter s fromThread toThread t }
  -- no list loses another thread or changes their order; the displaced thread comes last in its list
  lists : ∀ p, s'.priorityTable p = (s.priorityTable p).erase toThread ++
    if Displaced s fromThread toThread ∧ p = (s.thread fromThread).currentPriority then [fromThread] else []
  invariant : Consistent prioMax s' none

variable {prioMax : ℕ} {s : State T} {t u : T}

theorem statAfter_self (s : State T) (t v : T) :
    statAfter s t t v = if v = t then .running else (s.thread v).stat := by
  rw [statAfter, if_neg (c := v = t ∧ Displaced s t t) fun hv => hv.2.1 rfl]

theorem switchTo_thread (prioMax : ℕ) (s : State T) {t u : T} (hne : u ≠ t) {needInsert : Bool}
    (hneed : needInsert = true ↔ (s.thread t).stat = .running) (v : T) :
    (switchTo prioMax s t u needInsert).thread v = { s.thread v with stat := statAfter s t u v } := by
  have hdisplaced : Displaced s t u ↔ needInsert = true := (and_iff_right hne).trans hneed.symm
  rw [switchTo, setStat_thread, remove_thread, statAfter]
  cases needInsert with
  | false =>
    have hnot : ¬(v = t ∧ Displaced s t u) := fun hv => Bool.noConfusion (hdisplaced.mp hv.2)
    rw [if_neg hnot]
    rfl
  | true =>
    have hcur : ¬({ s with currentThread := some u } : State T).currentThread = some t :=
      fun heq => hne (Option.some.inj heq)
    simp only [if_true, rtScheduleInsertThread, if_neg hcur]
    rw [setStat_thread]
    simp only [hdisplaced, and_true]

theorem erase_append_singleton {l : List T} (hne : u ≠ t) : (l ++ [t]).erase u = l.erase u ++ [t] := by
  rw [List.erase_append]
  split
  · rfl
  · rename_i hu
    rw [List.erase_of_not_mem hu, List.erase_of_not_mem fun hmem => hne (List.mem_singleton.mp hmem)]

theorem switchTo_priorityTable (prioMax : ℕ) (s : State T) {t u : T} (hne : u ≠ t) {needInsert : Bool}
    (hneed : needInsert = true ↔ (s.thread t).stat = .running) (p : ℕ) :
    (switchTo prioMax s t u needInsert).priorityTable p = (s.priorityTable p).erase u ++
      if Displaced s t u ∧ p = (s.thread t).currentPriority then [t] else [] := by
  have hdisplaced : Displaced s t u ↔ needInsert = true := (and_iff_right hne).trans hneed.symm
  refine (remove_priorityTable prioMax _ u p).trans ?_
  cases needInsert with
  | false =>
    have hnot : ¬(Displaced s t u ∧ p = (s.thread t).currentPriority) :=
      fun hd => Bool.noConfusion (hdisplaced.mp hd.1)
    rw [if_neg hnot, List.append_nil]
    rfl
  | true =>
    have hcur : ¬({ s with currentThread := some u } : State T).currentThread = some t :=
      fun heq => hne (Option.some.inj heq)
    simp only [if_true, rtScheduleInsertThread, if_neg hcur]
    by_cases hp : p = (s.thread t).currentPriority
    · rw [if_pos ⟨hdisplaced.mpr rfl, hp⟩, hp, Function.update_self]
      exact erase_append_singleton hne
    · rw [if_neg fun hd => hp hd.2, Function.update_of_ne hp, List.append_nil]

omit [DecidableEq T] in
theorem getHighestPriorityThread_isSome (h : Consistent prioMax s none) (hready : (s.thread t).stat = .ready) :
    ∃ toThread highest, getHighestPriorityThread prioMax s = some (toThread, highest) ∧
      (s.thread toThread).stat = .ready ∧ (s.thread toThread).currentPriority = highest ∧
      ∀ v, (s.thread v).stat = .ready → highest ≤ (s.thread v).currentPriority := by
  have hlisted : ∀ v, (s.thread v).stat = .ready → s.priorityTable (s.thread v).currentPriority ≠ [] :=
    fun v hv => List.ne_nil_of_mem ((h.listed _ v).mpr ⟨(Option.some_ne_none v).symm, hv, rfl⟩)
  obtain ⟨hmem, hlow⟩ := h.isLeast_highest ⟨_, hlisted t hready⟩
  obtain ⟨toThread, rest, hlist⟩ := List.exists_cons_of_ne_nil hmem
  have hget : getHighestPriorityThread prioMax s = some (toThread, s.bits.highest prioMax) := by
    rw [getHighestPriorityThread, hlist]
    rfl
  obtain ⟨hto, hprio⟩ := getHighestPriorityThread_spec h hget
  exact ⟨toThread, _, hget, hto, hprio, fun v hv => hlow (hlisted v hv)⟩

theorem Picked.of_threads {s' : State T} (hto : Candidate s u) (hcur : s'.currentThread = some u)
    (hleast : ∀ v, Candidate s v → (s.thread u).currentPriority ≤ (s.thread v).currentPriority)
    (hthreads : ∀ v, s'.thread v = { s.thread v with stat := statAfter s t u v })
    (hlists : ∀ p, s'.priorityTable p = (s.priorityTable p).erase u ++
      if Displaced s t u ∧ p = (s.thread t).currentPriority then [t] else [])
    (hinv : Consistent prioMax s' none) : Picked prioMax s s' t u := by
  have hrunning : (s'.thread u).stat = .running := by
    rw [hthreads, statAfter]
    exact if_pos rfl
  refine ⟨hcur, hrunning, fun p hp => ?_, hto, fun v hv => ?_, hthreads, hlists, hinv⟩
  · have hready := ((hinv.listed p u).mp hp).2.1
    rw [hrunning] at hready
    cases hready
  · rw [hthreads]
    exact hleast v hv

omit [DecidableEq T] in
theorem Candidate.of_ready {v : T} (hcur : s.currentThread = some t) (hnot : (s.thread t).stat ≠ .running)
    (hv : Candidate s v) : (s.thread v).stat = .ready := by
  rcases hv with hready | ⟨hv, hrun⟩
  · exact hready
  · obtain rfl := Option.some.inj (hcur.symm.trans hv)
    exact absurd hrun hnot

theorem dispatch_picked (hmax : prioMax ≤ 256) (h : Consistent prioMax s none) (hcur : s.currentThread = some t)
    (hto : Candidate s t)
    (hleast : ∀ v, Candidate s v → (s.thread t).currentPriority ≤ (s.thread v).currentPriority) :
    Picked prioMax s ((rtScheduleRemoveThread prioMax s t).setStat t .running) t t := by
  have hnone : ¬Displaced s t t := fun hd => hd.1 rfl
  have hmasks : (s.thread t).masks = masksOf prioMax (s.thread t).currentPriority := by
    apply (h.masks t nofun).masks_eq
    all_goals
      intro hstat
      rcases hto with hready | ⟨-, hready⟩
      all_goals
        rw [hstat] at hready
        cases hready
  have hcur' : ((rtScheduleRemoveThread prioMax s t).setStat t .running).currentThread = some t :=
    (remove_currentThread prioMax s t).trans hcur
  apply Picked.of_threads hto hcur' hleast
  · intro v
    rw [setStat_thread, remove_thread, statAfter_self]
  · intro p
    rw [if_neg fun hd => hnone hd.1, List.append_nil]
    exact remove_priorityTable prioMax s t p
  · exact h.retire hmax (by simp) rfl rfl (Or.inl hmasks)

theorem switchTo_currentThread (prioMax : ℕ) (s : State T) (t u : T) (needInsert : Bool) :
    (switchTo prioMax s t u needInsert).currentThread = some u := by
  refine (remove_currentThread prioMax _ u).trans ?_
  cases needInsert with
  | false => rfl
  | true => exact insert_currentThread prioMax _ t

theorem switchTo_picked (hmax : prioMax ≤ 256) (h : Consistent prioMax s none) (hne : u ≠ t)
    (hto : (s.thread u).stat = .ready) {needInsert : Bool}
    (hneed : needInsert = true ↔ (s.thread t).stat = .running)
    (hleast : ∀ v, Candidate s v → (s.thread u).currentPriority ≤ (s.thread v).currentPriority) :
    Picked prioMax s (switchTo prioMax s t u needInsert) t u :=
  Picked.of_threads (Or.inl hto) (switchTo_currentThread prioMax s t u needInsert) hleast
    (switchTo_thread prioMax s hne hneed) (switchTo_priorityTable prioMax s hne hneed)
    (h.switchTo hmax hne hto hneed.mp).lists

theorem idle_picked (h : Consistent prioMax s none) (hcur : s.currentThread = some t)
    (hrun : (s.thread t).stat = .running) (hidle : ∀ v, (s.thread v).stat ≠ .ready) : Picked prioMax s s t t := by
  have hnone : ¬Displaced s t t := fun hd => hd.1 rfl
  apply Picked.of_threads (Or.inr ⟨hcur, hrun⟩) hcur
  · rintro v (hready | ⟨hv, -⟩)
    · exact absurd hready (hidle v)
    · rw [Option.some.inj (hv.symm.trans hcur)]
  · intro v
    rw [statAfter_self]
    by_cases hv : v = t
    · rw [hv, if_pos rfl, ← hrun]
    · rw [if_neg hv]
  · intro p
    rw [if_neg fun hd => hnone hd.1, List.append_nil, List.erase_of_not_mem]
    exact fun hmem => hidle t ((h.listed p t).mp hmem).2.1
  · exact h

theorem rtSchedule_picked (hmax : prioMax ≤ 256) (h : Consistent prioMax s none) (hnest : s.lockNest = 0)
    (hcur : s.currentThread = some t) {v : T} (hready : (s.thread v).stat = .ready) :
    ∃ s' u, rtSchedule prioMax s = some s' ∧ Picked prioMax s s' t u := by
  obtain ⟨toThread, highest, hget, hto, hprio, hleast⟩ := getHighestPriorityThread_isSome h hready
  have hgroup : s.bits.group ≠ 0 := fun hzero =>
    (group_eq_zero_iff h.grouped).mp hzero _
      ((h.marked _).mpr (List.ne_nil_of_mem ((h.listed _ v).mpr ⟨nofun, hready, rfl⟩)))
  rw [rtSchedule, if_pos ⟨hnest, hgroup⟩, hget, hcur]
  simp only [Option.bind_some, Option.map_some, chooseThread]
  by_cases hrun : (s.thread t).stat = .running
  · rw [if_pos hrun]
    by_cases hlt : (s.thread t).currentPriority < highest
    · -- the current thread goes on
      rw [if_pos hlt]
      refine ⟨_, t, congrArg some (if_neg fun hne => hne rfl), ?_⟩
      apply dispatch_picked hmax h hcur (Or.inr ⟨hcur, hrun⟩)
      rintro w (hw | ⟨hw, -⟩)
      · exact hlt.le.trans (hleast w hw)
      · rw [Option.some.inj (hw.symm.trans hcur)]
    · have hne : toThread ≠ t := by
        rintro rfl
        rw [hrun] at hto
        cases hto
      rw [if_neg hlt]
      refine ⟨_, toThread, congrArg some (if_pos hne), ?_⟩
      apply switchTo_picked hmax h hne hto (iff_of_true rfl hrun)
      rintro w (hw | ⟨hw, -⟩)
      · rw [hprio]
        exact hleast w hw
      · rw [Option.some.inj (hw.symm.trans hcur), hprio]
        exact not_lt.mp hlt
  · have hlow : ∀ w, Candidate s w → (s.thread toThread).currentPriority ≤ (s.thread w).currentPriority := by
      intro w hw
      rw [hprio]
      exact hleast w (hw.of_ready hcur hrun)
    rw [if_neg hrun]
    by_cases hne : toThread = t
    · subst hne
      refine ⟨_, toThread, congrArg some (if_neg fun hne => hne rfl), ?_⟩
      exact dispatch_picked hmax h hcur (Or.inl hto) hlow
    · exact ⟨_, toThread, congrArg some (if_pos hne), switchTo_picked hmax h hne hto (iff_of_false Bool.false_ne_true hrun) hlow⟩

/-- `rt_schedule` does nothing when it is locked or no thread is ready. -/
theorem rtSchedule_spec (hmax : prioMax ≤ 256) (h : Consistent prioMax s none) {s' : State T}
    (hs : rtSchedule prioMax s = some s') :
    (s' = s ∧ (s.lockNest = 0 → ∀ v, (s.thread v).stat ≠ .ready)) ∨
      ∃ t u, s.currentThread = some t ∧ Picked prioMax s s' t u := by
  by_cases hguard : s.lockNest = 0 ∧ s.bits.group ≠ 0
  · right
    obtain ⟨v, hv⟩ := List.exists_mem_of_ne_nil _ ((h.marked _).mp (highest_spec h.grouped hguard.2).1)
    cases hcur : s.currentThread with
    | none =>
      rw [rtSchedule, if_pos hguard, hcur] at hs
      obtain ⟨⟨_, _⟩, -, hnone⟩ := Option.bind_eq_some_iff.mp hs
      cases hnone
    | some t =>
      obtain ⟨s₁, u, hs₁, hpicked⟩ := rtSchedule_picked hmax h hguard.1 hcur ((h.listed _ v).mp hv).2.1
      obtain rfl := Option.some.inj (hs₁.symm.trans hs)
      exact ⟨t, u, rfl, hpicked⟩
  · left
    rw [rtSchedule, if_neg hguard] at hs
    cases hs
    refine ⟨rfl, fun hnest v hv => hguard ⟨hnest, fun hzero => ?_⟩⟩
    have hlisted : s.priorityTable (s.thread v).currentPriority ≠ [] :=
      List.ne_nil_of_mem ((h.listed _ v).mpr ⟨(Option.some_ne_none v).symm, hv, rfl⟩)
    exact (group_eq_zero_iff h.grouped).mp hzero _ ((h.marked _).mpr hlisted)

/-- In a state whose ready lists are right `rt_schedule` picks a candidate of the highest priority, if there is
one. It changes nothing while the scheduler is locked. -/
theorem schedule_picks_least (hmax : prioMax ≤ 256) (h : Consistent prioMax s none) :
    (∀ fromThread, s.lockNest = 0 → s.currentThread = some fromThread → (∃ t, Candidate s t) →
      ∃ s' toThread, rtSchedule prioMax s = some s' ∧ Picked prioMax s s' fromThread toThread) ∧
    (0 < s.lockNest → rtSchedule prioMax s = some s) := by
  constructor
  · intro fromThread hnest hcur hexists
    by_cases hready : ∃ v, (s.thread v).stat = .ready
    · obtain ⟨v, hv⟩ := hready
      exact rtSchedule_picked hmax h hnest hcur hv
    · have hidle : ∀ v, (s.thread v).stat ≠ .ready := fun v hv => hready ⟨v, hv⟩
      obtain ⟨t, ht⟩ := hexists
      have hrun : (s.thread fromThread).stat = .running := by
        by_contra hnot
        exact hidle t (ht.of_ready hcur hnot)
      have hgroup : s.bits.group = 0 := by
        refine (group_eq_zero_iff h.grouped).mpr fun p hmarked => ?_
        obtain ⟨v, hv⟩ := List.exists_mem_of_ne_nil _ ((h.marked p).mp hmarked)
        exact hidle v ((h.listed p v).mp hv).2.1
      refine ⟨s, fromThread, ?_, idle_picked h hcur hrun hidle⟩
      rw [rtSchedule, if_neg fun hguard => hguard.2 hgroup]
  · intro hnest
    rw [rtSchedule, if_neg fun hguard => hnest.ne' hguard.1]

theorem sampleThreads_init (t : ℕ) :
    ∃ p isSystem cleanup, p < 32 ∧ sampleThreads t = rtThreadInit p isSystem cleanup :=
  ⟨if t < 2 then 5 else 6, false, false, by split <;> omega, rfl⟩

theorem schedule_picks_least_sample :
    ∃ s, exec (step 32) (rtSystemSchedulerInit sampleThreads) [.startup 0, .startup 1, .start] = some s ∧
      (∃ s' toThread, rtSchedule 32 s = some s' ∧ Picked 32 s s' 0 toThread) ∧
      rtSchedule 32 { s with lockNest := 1 } = some { s with lockNest := 1 } := by
  have hrun : ((exec (step 32) (rtSystemSchedulerInit sampleThreads) [.startup 0, .startup 1, .start]).map fun s =>
      (s.lockNest, s.currentThread, (s.thread 1).stat)) = some (0, some 0, .ready) := by decide
  obtain ⟨s, hs, hstate⟩ := Option.map_eq_some_iff.mp hrun
  simp only [Prod.mk.injEq] at hstate
  obtain ⟨hnest, hcur, hready⟩ := hstate
  have hinv := (run_inv (by decide) sampleThreads_init hs).lists
  refine ⟨s, hs, (schedule_picks_least (by decide) hinv).1 0 hnest hcur ⟨1, Or.inl hready⟩, ?_⟩
  exact (schedule_picks_least (s := { s with lockNest := 1 }) (by decide) (hinv.of_eq rfl rfl rfl)).2 Int.one_pos

/-- The only thread that was started suspends itself: no thread is ready, and it stays the current thread. -/
theorem schedule_keeps_suspended :
    ∃ s, exec (step 32) (rtSystemSchedulerInit sampleThreads) [.startup 0, .start, .suspend 0] = some s ∧
      Consistent 32 s none ∧ s.lockNest = 0 ∧ s.currentThread = some 0 ∧
      ∀ s', rtSchedule 32 s = some s' → ∀ t, s'.currentThread = some t → (s'.thread t).stat ≠ .running := by
  have hrun : ((exec (step 32) (rtSystemSchedulerInit sampleThreads) [.startup 0, .start, .suspend 0]).map fun s =>
      (s.lockNest, s.currentThread, s.bits.group, (s.thread 0).stat)) = some (0, some 0, 0, .suspend) := by
    decide
  obtain ⟨s, hs, hstate⟩ := Option.map_eq_some_iff.mp hrun
  simp only [Prod.mk.injEq] at hstate
  obtain ⟨hnest, hcur, hgroup, hstat⟩ := hstate
  refine ⟨s, hs, (run_inv (by decide) sampleThreads_init hs).lists, hnest, hcur, fun s' hs' t ht => ?_⟩
  rw [rtSchedule, if_neg fun hguard => hguard.2 hgroup] at hs'
  cases hs'
  obtain rfl := Option.some.inj (hcur.symm.trans ht)
  rw [hstat]
  decide

end RtThread.Sched.Scheduler
