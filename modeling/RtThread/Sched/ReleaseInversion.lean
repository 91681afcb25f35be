import RtThread.Sched.WaitLists

/-!
# Priority inversion after `rt_mutex_release` (`ipc.c:789-880`)

`rt_mutex_release` calls `rt_schedule` only when it hands the mutex to a waiter. The caller may get a lower priority
back also when no thread waits any more, and then keeps the CPU.
-/

namespace RtThread.Sched.WaitLists

open RtThread.Ipc.Base (IpcFlag RtErr)
open RtThread.Lib.Transition RtThread.Lib.Word RtThread.Sched.Bitmap RtThread.Sched.Scheduler

variable {T M O : Type*}

/-- No ready thread has a more urgent priority than the current thread. -/
def NoInversion (s : State T) : Prop :=
  ∀ t u, s.currentThread = some t → (s.thread u).stat = .ready →
    (s.thread t).currentPriority ≤ (s.thread u).currentPriority

/-- The call of its owner releases the mutex and a thread waits for it. -/
def HandsOver (k : Kernel T M O) (m : M) : Prop :=
  dec 8 (k.mutex m).hold = 0 ∧ (k.object (.inl m)).suspendThread ≠ []

/-- The priority that the owner `t` has after a release. -/
def keptPriority (k : Kernel T M O) (m : M) (t : T) : ℕ :=
  if dec 8 (k.mutex m).hold = 0 then (k.mutex m).originalPriority else k.prio t

variable [DecidableEq T] {prioMax : ℕ}

section Scheduling

variable {s s' : State T} {t : T}

theorem rtSchedule_noInversion (hmax : prioMax ≤ 256) (h : Consistent prioMax s none) (hnest : s.lockNest = 0)
    (hs : rtSchedule prioMax s = some s') : NoInversion s' := by
  intro v u hv hu
  rcases rtSchedule_spec hmax h hs with ⟨rfl, hidle⟩ | ⟨t, toThread, hcur, hpicked⟩
  · exact absurd hu (hidle hnest u)
  · obtain rfl := Option.some.inj (hpicked.current.symm.trans hv)
    rw [hpicked.threads u] at hu ⊢
    apply hpicked.least u
    -- a thread that is ready afterwards was a candidate
    simp only [statAfter] at hu
    split at hu
    · cases hu
    · split at hu
      · rename_i hfrom
        exact Or.inr ⟨hfrom.1 ▸ hcur, hfrom.1 ▸ hfrom.2.2⟩
      · exact Or.inl hu

theorem rtThreadResume_lockNest (prioMax : ℕ) (s : State T) (v : T) :
    (rtThreadResume prioMax s v).1.lockNest = s.lockNest := by
  unfold rtThreadResume
  split
  · rfl
  · exact insert_lockNest prioMax _ v

/-- `rt_thread_control` on a thread that is not ready. -/
theorem rtThreadControl_of_not_ready (hstat : (s.thread t).stat ≠ .ready) (priority : ℕ) :
    rtThreadControl prioMax s t priority =
      s.setThread t fun th => { th with currentPriority := priority, masks := masksOf prioMax priority } :=
  if_neg hstat

omit [DecidableEq T] in
theorem NoInversion.of_current (hcur : s.currentThread = some t) :
    NoInversion s ↔ ∀ u, (s.thread u).stat = .ready → (s.thread t).currentPriority ≤ (s.thread u).currentPriority := by
  constructor
  · exact fun h u hu => h t u hcur hu
  · intro h v u hv hu
    obtain rfl := Option.some.inj (hcur.symm.trans hv)
    exact h u hu

/-- The priority of a thread that is not ready changes, and nothing else. -/
structure Lowered (s s' : State T) (t : T) (priority : ℕ) : Prop where
  currentThread : s'.currentThread = s.currentThread
  lockNest : s'.lockNest = s.lockNest
  others : ∀ u, u ≠ t → s'.thread u = s.thread u
  stat : (s'.thread t).stat = (s.thread t).stat
  priority : (s'.thread t).currentPriority = priority

theorem restore_lowered (hstat : (s.thread t).stat ≠ .ready) (priority : ℕ) :
    Lowered s (if priority ≠ (s.thread t).currentPriority then rtThreadControl prioMax s t priority else s) t
      priority := by
  split
  · rw [rtThreadControl_of_not_ready hstat]
    refine ⟨rfl, rfl, fun u hu => setThread_of_ne hu _, ?_, ?_⟩
    · rw [setThread_self]
    · rw [setThread_self]
  · rename_i heq
    exact ⟨rfl, rfl, fun _ _ => rfl, rfl, (not_not.mp heq).symm⟩

theorem Lowered.noInversion_iff {priority : ℕ} (h : Lowered s s' t priority) (hcur : s.currentThread = some t)
    (hstat : (s.thread t).stat ≠ .ready) :
    NoInversion s' ↔ ∀ u, (s.thread u).stat = .ready → priority ≤ (s.thread u).currentPriority := by
  rw [NoInversion.of_current (h.currentThread.trans hcur), h.priority]
  refine forall_congr' fun u => ?_
  by_cases hu : u = t
  · rw [hu, h.stat]
    exact iff_of_true (fun hready => absurd hready hstat) fun hready => absurd hready hstat
  · rw [h.others u hu]

end Scheduling

section Release

variable [DecidableEq M] {k k' : Kernel T M O} {t : T} {m : M}

/-- What a release by the owner leaves of the scheduler: it is as before, or the owner has its original priority
back, or that and `rt_schedule` was called. -/
theorem rtMutexRelease_cases (hmax : prioMax ≤ 256) (h : Ready prioMax k) (hcur : k.sched.currentThread = some t)
    (hrelease : rtMutexRelease prioMax k m = some (k', .eok)) :
    (dec 8 (k.mutex m).hold ≠ 0 ∧ k'.sched = k.sched) ∨
    (dec 8 (k.mutex m).hold = 0 ∧ (k.object (.inl m)).suspendThread = [] ∧
      Lowered k.sched k'.sched t (k.mutex m).originalPriority) ∨
    (HandsOver k m ∧ ∃ s, Inv prioMax s ∧ s.lockNest = k.sched.lockNest ∧ rtSchedule prioMax s = some k'.sched) := by
  have hstat := h.sched.current t hcur
  simp only [rtMutexRelease, hcur, Option.bind_some] at hrelease
  split at hrelease
  · cases hrelease
  · rename_i howner
    split at hrelease
    · rename_i hhold
      cases hrelease
      exact Or.inl ⟨hhold, rfl⟩
    · rename_i hhold
      have hlowered := @restore_lowered T _ prioMax k.sched t hstat (k.mutex m).originalPriority
      have howned : (k.mutex m).owner ≠ none := by
        rw [not_not.mp howner]
        exact Option.some_ne_none t
      split at hrelease
      · rename_i waiter rest hlist
        obtain ⟨s', hs', heq⟩ := Option.map_eq_some_iff.mp hrelease
        cases heq
        have hrestored := @restore_inv T M O _ prioMax k t hmax m h howned
        refine Or.inr (Or.inr ⟨⟨not_not.mp hhold, hlist ▸ List.cons_ne_nil waiter rest⟩, _, ?_, ?_, hs'⟩)
        · rw [resume_sched]
          exact rtThreadResume_inv hmax hrestored
        · rw [resume_sched]
          exact (rtThreadResume_lockNest prioMax _ waiter).trans hlowered.lockNest
      · rename_i hlist
        cases hrelease
        exact Or.inr (Or.inl ⟨not_not.mp hhold, hlist, hlowered⟩)

/-- In every run, when the owner releases a mutex and the scheduler is not locked: no ready thread is more urgent than
the thread that then runs, exactly if the mutex is handed to a waiter, or no ready thread is more urgent than the
priority that the owner is left with. -/
theorem release_no_inversion_iff [DecidableEq O] (hmax : prioMax ≤ 256) {thread : T → Thread} {flag : M ⊕ O → IpcFlag}
    {acts : List (Act T M O)}
    (hthread : ∀ t, ∃ p isSystem cleanup, p < prioMax ∧ thread t = rtThreadInit p isSystem cleanup)
    (hrun : exec (step prioMax) (initial thread flag) acts = some k) (hcur : k.sched.currentThread = some t)
    (hnest : k.sched.lockNest = 0) (hrelease : rtMutexRelease prioMax k m = some (k', .eok)) :
    NoInversion k'.sched ↔
      HandsOver k m ∨ ∀ u, (k.sched.thread u).stat = .ready → keptPriority k m t ≤ k.prio u := by
  have h := run_ready hmax hthread hrun
  have hstat := h.sched.current t hcur
  rcases rtMutexRelease_cases hmax h hcur hrelease with ⟨hhold, hsame⟩ | ⟨hhold, hlist, hlowered⟩ | ⟨hhands, hrest⟩
  · rw [hsame, NoInversion.of_current hcur, or_iff_right fun hhands => hhold hhands.1]
    simp only [keptPriority, if_neg hhold, Kernel.prio]
  · rw [hlowered.noInversion_iff hcur hstat, or_iff_right fun hhands => hhands.2 hlist]
    simp only [keptPriority, if_pos hhold, Kernel.prio]
  · obtain ⟨s, hs, hnest', hsched⟩ := hrest
    exact iff_of_true (rtSchedule_noInversion hmax hs.lists (hnest'.trans hnest) hsched) (Or.inl hhands)

/-- The threads 0, 1 and 2 have the priorities 10, 5 and 7. -/
def threeThreads (t : ℕ) : Thread := rtThreadInit (if t = 0 then 10 else if t = 1 then 5 else 7) false false

theorem threeThreads_init (t : ℕ) :
    ∃ p isSystem cleanup, p < 32 ∧ threeThreads t = rtThreadInit p isSystem cleanup :=
  ⟨if t = 0 then 10 else if t = 1 then 5 else 7, false, false, by split <;> [omega; split <;> omega], rfl⟩

/-- The thread 1 waits for the mutex of the thread 0, which gets its priority. -/
def boostRun (time : ℤ) : List (Act ℕ ℕ ℕ) :=
  [.call (.startup 0), .call .start, .mutexTake 0 (-1), .call (.startup 1), .mutexTake 0 time]

theorem release_no_inversion_iff_sample :
    ∃ (k : Kernel ℕ ℕ ℕ) (k' : Kernel ℕ ℕ ℕ),
      exec (step 32) (initial threeThreads fun _ => .prio) (boostRun (-1)) = some k ∧
      rtMutexRelease 32 k 0 = some (k', .eok) ∧ NoInversion k'.sched := by
  have hrun : ((exec (step 32) (initial threeThreads fun _ => .prio) (boostRun (-1))).bind fun k : Kernel ℕ ℕ ℕ =>
      (rtMutexRelease 32 k 0).map fun r => (k.sched.currentThread, k.sched.lockNest, (k.mutex 0).hold,
        (k.object (.inl 0)).suspendThread, r.2)) = some (some 0, 0, 1, [1], .eok) := by decide
  simp only [Option.bind_eq_some_iff, Option.map_eq_some_iff, Prod.mk.injEq] at hrun
  obtain ⟨k, hk, ⟨k', e⟩, hrelease, hcur, hnest, hhold, hlist, rfl⟩ := hrun
  refine ⟨k, k', hk, hrelease, ?_⟩
  refine (release_no_inversion_iff (by decide) threeThreads_init hk hcur hnest hrelease).mpr (Or.inl ⟨?_, ?_⟩)
  · rw [hhold]
    decide
  · rw [hlist]
    decide

/-- The thread 1 gives up after 5 ticks and sleeps, and the thread 2 becomes ready. The thread 0 releases the mutex:
it has the priority 10 again and goes on. -/
theorem release_leaves_inversion :
    ∃ (k : Kernel ℕ ℕ ℕ) (k' : Kernel ℕ ℕ ℕ), exec (step 32) (initial threeThreads fun _ => .prio)
        (boostRun 5 ++ [.call (.timeout 1), .call .sleep, .call (.startup 2)]) = some k ∧
      k.sched.currentThread = some 0 ∧ k.sched.lockNest = 0 ∧ rtMutexRelease 32 k 0 = some (k', .eok) ∧
      ¬NoInversion k'.sched := by
  have hrun : ((exec (step 32) (initial threeThreads fun _ => .prio)
      (boostRun 5 ++ [.call (.timeout 1), .call .sleep, .call (.startup 2)])).bind fun k : Kernel ℕ ℕ ℕ =>
        (rtMutexRelease 32 k 0).map fun r => (k.sched.currentThread, k.sched.lockNest, r.2, r.1.sched.currentThread,
          (r.1.sched.thread 2).stat, r.1.prio 0 - r.1.prio 2)) =
      some (some 0, 0, .eok, some 0, .ready, 3) := by decide +kernel
  simp only [Option.bind_eq_some_iff, Option.map_eq_some_iff, Prod.mk.injEq] at hrun
  obtain ⟨k, hk, ⟨k', e⟩, hrelease, hcur, hnest, rfl, hcur', hready, hprio⟩ := hrun
  refine ⟨k, k', hk, hcur, hnest, hrelease, fun hnone => ?_⟩
  have hle : k'.prio 0 ≤ k'.prio 2 := hnone 0 2 hcur' hready
  have hprio : k'.prio 0 - k'.prio 2 = 3 := hprio
  omega

end Release

end RtThread.Sched.WaitLists
