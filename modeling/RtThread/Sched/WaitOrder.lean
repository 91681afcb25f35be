import RtThread.Lib.Sorted
import RtThread.Sched.WaitLists

/-!
# The order of the suspend lists (`ipc.c:79-146`, `thread.c:570-611`)

`rt_ipc_list_suspend` puts a thread where its priority belongs. `rt_thread_control` moves a ready thread to another
ready list when its priority changes, but leaves a waiting thread where it is.
-/

namespace RtThread.Sched.WaitLists

open RtThread.Ipc.Base (IpcFlag RtErr rtIpcListSuspend insertByPriority insertByPriority_perm mem_rtIpcListSuspend
  nodup_rtIpcListSuspend)
open RtThread.Lib.Sorted RtThread.Lib.Transition RtThread.Lib.Word RtThread.Sched.Scheduler

variable {T M O : Type*} [DecidableEq T] {prioMax : ℕ}

/-! ### A thread that stays suspended -/

section Suspended

variable {s s' : State T} {t v : T}

/-- The thread whose priority a call of the scheduler changes, and the new priority. -/
def controlled : Scheduler.Act T → Option (T × ℕ)
  | .control t priority => some (t, priority)
  | _ => none

/-- The priority of a suspended thread after a call of the scheduler. -/
def changed (a : Scheduler.Act T) (v : T) (priority : ℕ) : ℕ :=
  match controlled a with
  | some (t, p) => if v = t then p else priority
  | none => priority

/-- The thread is suspended before and after, with the same priority. -/
def StaysSuspended (s s' : State T) (v : T) : Prop :=
  (s'.thread v).stat = .suspend ∧ (s'.thread v).currentPriority = (s.thread v).currentPriority

omit [DecidableEq T] in
theorem StaysSuspended.of_eq (hv : (s.thread v).stat = .suspend) (h : s'.thread v = s.thread v) : StaysSuspended s s' v :=
  ⟨h ▸ hv, h ▸ rfl⟩

omit [DecidableEq T] in
theorem StaysSuspended.trans {s₂ : State T} (h : StaysSuspended s s' v) (h' : StaysSuspended s' s₂ v) :
    StaysSuspended s s₂ v := ⟨h'.1, h'.2.trans h.2⟩

omit [DecidableEq T] in
theorem StaysSuspended.insertDefunct (h : StaysSuspended s s' v) (t : T) : StaysSuspended s (insertDefunct s' t) v := h

theorem setThread_staysSuspended (hv : (s.thread v).stat = .suspend) {f : Thread → Thread}
    (hf : ∀ th, (f th).stat = th.stat ∧ (f th).currentPriority = th.currentPriority) :
    StaysSuspended s (s.setThread t f) v := by
  by_cases hvt : v = t
  · subst hvt
    rw [StaysSuspended, setThread_self]
    exact ⟨(hf _).1.trans hv, (hf _).2⟩
  · exact StaysSuspended.of_eq hv (setThread_of_ne hvt f)

theorem rtSchedule_staysSuspended (hmax : prioMax ≤ 256) (h : Inv prioMax s) (hv : (s.thread v).stat = .suspend)
    (hs : rtSchedule prioMax s = some s') : StaysSuspended s s' v := by
  rcases rtSchedule_spec hmax h.lists hs with ⟨rfl, -⟩ | ⟨t, u, -, hpicked⟩
  · exact ⟨hv, rfl⟩
  · have hstat : statAfter s t u v = .suspend := by
      rw [statAfter, if_neg, if_neg, hv]
      · rintro ⟨rfl, -, hrun⟩
        rw [hv] at hrun
        cases hrun
      · rintro rfl
        rcases hpicked.candidate with hc | ⟨-, hc⟩
        all_goals
          rw [hv] at hc
          cases hc
    rw [StaysSuspended, hpicked.threads v]
    exact ⟨hstat, rfl⟩

theorem rtThreadSuspend_staysSuspended (hv : (s.thread v).stat = .suspend) {r : State T × RtErr}
    (hr : rtThreadSuspend prioMax s t = some r) : StaysSuspended s r.1 v := by
  simp only [rtThreadSuspend] at hr
  split at hr
  · cases hr
    exact ⟨hv, rfl⟩
  · rename_i hstat
    split at hr
    · cases hr
    · cases hr
      have hvt : v ≠ t := by
        rintro rfl
        rw [hv] at hstat
        exact hstat ⟨by decide, by decide⟩
      refine StaysSuspended.of_eq hv ?_
      rw [setThread_of_ne hvt, remove_thread]

theorem rtThreadSuspend_suspends (ht : (s.thread t).stat ∈ [Stat.running, .suspend]) {r : State T × RtErr}
    (hr : rtThreadSuspend prioMax s t = some r) :
    (r.1.thread t).stat = .suspend ∧ (r.1.thread t).currentPriority = (s.thread t).currentPriority := by
  by_cases hsuspend : (s.thread t).stat = .suspend
  · exact rtThreadSuspend_staysSuspended hsuspend hr
  · have hrun : (s.thread t).stat = .running := by simpa [hsuspend] using ht
    rw [rtThreadSuspend, if_neg fun hnot => hnot.2 hrun] at hr
    split at hr
    · cases hr
    · cases hr
      rw [setThread_self, remove_thread]
      exact ⟨rfl, rfl⟩

theorem closeThread_of_ne (hvt : v ≠ t) : (closeThread prioMax s t).thread v = s.thread v := by
  simp only [closeThread]
  rw [setThread_of_ne hvt]
  split
  · rw [remove_thread]
  · rfl

theorem rtThreadControl_suspended (priority : ℕ) (hv : (s.thread v).stat = .suspend) :
    ((rtThreadControl prioMax s t priority).thread v).stat = .suspend ∧
      ((rtThreadControl prioMax s t priority).thread v).currentPriority =
        if v = t then priority else (s.thread v).currentPriority := by
  by_cases hvt : v = t
  · subst hvt
    rw [rtThreadControl, if_neg (by rw [hv]; decide), setThread_self, if_pos rfl]
    exact ⟨hv, rfl⟩
  · have hsame : (rtThreadControl prioMax s t priority).thread v = s.thread v := by
      simp only [rtThreadControl]
      split
      · rw [insert_thread_of_ne prioMax hvt, setThread_of_ne hvt, remove_thread]
      · exact setThread_of_ne hvt _
    rw [hsame, if_neg hvt]
    exact ⟨hv, rfl⟩

/-- A call of the scheduler leaves a suspended thread as it is, unless it takes it out of its list or changes its
priority. -/
theorem call_suspended (hmax : prioMax ≤ 256) {a : Scheduler.Act T} (h : Inv prioMax s)
    (hs : Scheduler.step prioMax s a = some s') (hv : (s.thread v).stat = .suspend) (hout : unlisted s a ≠ some v) :
    (s'.thread v).stat = .suspend ∧ (s'.thread v).currentPriority = changed a v (s.thread v).currentPriority := by
  have hother : ∀ t, some t ≠ some v → v ≠ t := fun t ht hvt => ht (congrArg some hvt.symm)
  cases a with
  | control t priority =>
    simp only [Scheduler.step, Option.ite_none_right_eq_some, Option.some.injEq] at hs
    obtain ⟨-, rfl⟩ := hs
    exact rtThreadControl_suspended priority hv
  | start =>
    simp only [Scheduler.step, rtSystemSchedulerStart, Option.ite_none_right_eq_some, Option.ite_none_left_eq_some,
      Option.map_eq_some_iff] at hs
    obtain ⟨-, -, ⟨toThread, highest⟩, hget, rfl⟩ := hs
    have hvt : v ≠ toThread := by
      rintro rfl
      rw [(getHighestPriorityThread_spec h.lists hget).1] at hv
      cases hv
    refine StaysSuspended.of_eq hv ?_
    rw [State.setStat, setThread_of_ne hvt, remove_thread]
  | startup t =>
    simp only [Scheduler.step, rtThreadStartup, ne_eq, ite_not, Option.ite_none_right_eq_some] at hs
    obtain ⟨hinit, hs⟩ := hs
    have hvt : v ≠ t := by
      rintro rfl
      rw [hv] at hinit
      cases hinit
    have hready : StaysSuspended s (rtThreadResume prioMax (s.setThread t fun th =>
        { th with currentPriority := th.initPriority, masks := Bitmap.masksOf prioMax th.initPriority,
                  stat := .suspend }) t).1 v := by
      refine StaysSuspended.of_eq hv ?_
      rw [(rtThreadResume_spec prioMax _ t).2 v hvt, setThread_of_ne hvt]
    split at hs
    · exact hready.trans (rtSchedule_staysSuspended hmax (startup_inv hmax h hinit) hready.1 hs)
    · cases hs
      exact hready
  | suspend t =>
    obtain ⟨r, hr, rfl⟩ := Option.map_eq_some_iff.mp hs
    exact rtThreadSuspend_staysSuspended hv hr
  | resume t =>
    cases hs
    have hvt : v ≠ t := by
      rintro rfl
      exact hout (if_pos hv)
    exact StaysSuspended.of_eq hv ((rtThreadResume_spec prioMax s t).2 v hvt)
  | yield => exact rtSchedule_staysSuspended hmax h hv hs
  | sleep =>
    simp only [Scheduler.step, rtThreadSleep, Option.bind_eq_some_iff] at hs
    obtain ⟨t, -, r, hr, hs⟩ := hs
    have hsuspend := rtThreadSuspend_staysSuspended hv hr
    have htimer : StaysSuspended r.1 (rtTimerStart r.1 t) v :=
      setThread_staysSuspended hsuspend.1 fun _ => ⟨rfl, rfl⟩
    refine (hsuspend.trans htimer).trans (rtSchedule_staysSuspended hmax ?_ htimer.1 hs)
    exact rtTimerStart_inv (rtThreadSuspend_inv hmax h hr)
  | sleepReturn =>
    simp only [Scheduler.step, rtThreadSleepReturn, Option.map_eq_some_iff] at hs
    obtain ⟨t, -, rfl⟩ := hs
    split
    · exact setThread_staysSuspended hv fun _ => ⟨rfl, rfl⟩
    · exact ⟨hv, rfl⟩
  | timerStart t =>
    cases hs
    exact setThread_staysSuspended hv fun _ => ⟨rfl, rfl⟩
  | delete t =>
    simp only [Scheduler.step, rtThreadDelete, Option.ite_none_left_eq_some, Option.some.injEq] at hs
    obtain ⟨-, rfl⟩ := hs
    exact StaysSuspended.of_eq hv (closeThread_of_ne (hother t hout))
  | detach t =>
    simp only [Scheduler.step, rtThreadDetach, Option.ite_none_right_eq_some] at hs
    obtain ⟨-, hs⟩ := hs
    split at hs
    · cases hs
      exact StaysSuspended.of_eq hv (closeThread_of_ne (hother t hout))
    · cases hs
      exact StaysSuspended.of_eq hv (closeThread_of_ne (hother t hout))
  | exit =>
    simp only [Scheduler.step, rtThreadExit, Option.bind_eq_some_iff] at hs
    obtain ⟨t, hcur, hs⟩ := hs
    have hvt : v ≠ t := by
      rintro rfl
      exact hout hcur
    have hclosed := exit_inv hmax h t
    have hkeep : ((rtScheduleRemoveThread prioMax s t).setThread t
        fun th => { th with stat := .close, threadTimer := false }).thread v = s.thread v := by
      rw [setThread_of_ne hvt, remove_thread]
    have hstays := StaysSuspended.of_eq hv hkeep
    split at hs
    · exact hstays.trans (rtSchedule_staysSuspended hmax hclosed hstays.1 hs)
    · have hdefunct := hstays.insertDefunct t
      exact hdefunct.trans (rtSchedule_staysSuspended hmax (insertDefunct_inv hclosed) hdefunct.1 hs)
  | timeout t =>
    simp only [Scheduler.step, rtThreadTimeout, Option.ite_none_right_eq_some] at hs
    obtain ⟨-, hstat, hs⟩ := hs
    have hinv := @Inv.wake T _ prioMax s t hmax h hstat (fun th => { th with error := .etimeout, threadTimer := false })
      fun _ => ⟨rfl, rfl, rfl⟩
    have hstays : StaysSuspended s (rtScheduleInsertThread prioMax ((rtListRemove s t).setThread t
        fun th => { th with error := .etimeout, threadTimer := false }) t) v := by
      refine StaysSuspended.of_eq hv ?_
      rw [insert_thread_of_ne prioMax (hother t hout), setThread_of_ne (hother t hout)]
      rfl
    exact hstays.trans (rtSchedule_staysSuspended hmax hinv hstays.1 hs)
  | schedule => exact rtSchedule_staysSuspended hmax h hv hs
  | enterCritical =>
    cases hs
    exact ⟨hv, rfl⟩
  | exitCritical =>
    simp only [Scheduler.step, rtExitCritical] at hs
    split at hs
    · split at hs
      · exact rtSchedule_staysSuspended (s := { s with lockNest := 0 }) hmax (lockNest_inv h 0) hv hs
      · cases hs
        exact ⟨hv, rfl⟩
    · cases hs
      exact ⟨hv, rfl⟩

end Suspended

/-! ### The order -/

section Order

/-- The place of a waiting thread in the order: its priority, and its arrival among threads of the same priority. -/
def rankOf (prio arrived : T → ℕ) (t : T) : ℕ ×ₗ ℕ := toLex (prio t, arrived t)

def Kernel.rank (k : Kernel T M O) : T → ℕ ×ₗ ℕ := rankOf k.prio k.arrived

/-- Each list of an object with `RT_IPC_FLAG_PRIO` is in the order of the priorities and arrivals. -/
def Ordered (k : Kernel T M O) : Prop :=
  ∀ o, (k.object o).flag = .prio → SortedBy k.rank (k.object o).suspendThread

/-- The first thread of each of these lists, the one that `rt_ipc_list_resume` wakes, is a most urgent one. -/
def WakesUrgent (k : Kernel T M O) : Prop :=
  ∀ o t, (k.object o).flag = .prio → (k.object o).suspendThread.head? = some t →
    ∀ u ∈ (k.object o).suspendThread, k.prio t ≤ k.prio u

/-- With its new priority the thread compares to each other thread of the list it waits in as before. -/
def KeepsPlace (k : Kernel T M O) (t : T) (priority : ℕ) : Prop :=
  ∀ o ∈ k.place t, (k.object o).flag = .prio → ∀ u ∈ (k.object o).suspendThread, u ≠ t →
    (k.rank u < k.rank t ↔ k.rank u < toLex (priority, k.arrived t))

instance [DecidableEq M] [DecidableEq O] (k : Kernel T M O) (t : T) (priority : ℕ) : Decidable (KeepsPlace k t priority) :=
  match hplace : k.place t with
  | none => isTrue fun o ho => by rw [hplace] at ho; cases ho
  | some o =>
    decidable_of_iff ((k.object o).flag = .prio → ∀ u ∈ (k.object o).suspendThread, u ≠ t →
        (k.rank u < k.rank t ↔ k.rank u < toLex (priority, k.arrived t)))
      ⟨fun h o' ho' => by rw [hplace] at ho'; cases ho'; exact h, fun h => h o hplace⟩

omit [DecidableEq T] in
theorem insertByPriority_sortedBy {prio arrived : T → ℕ} {t : T} {l : List T} (h : SortedBy (rankOf prio arrived) l)
    (hlate : ∀ u ∈ l, arrived u < arrived t) : SortedBy (rankOf prio arrived) (insertByPriority prio t l) := by
  induction l with
  | nil => exact List.pairwise_singleton _ t
  | cons s rest ih =>
    obtain ⟨hfirst, hrest⟩ := List.pairwise_cons.mp h
    simp only [insertByPriority]
    split
    · rename_i hlt
      have hts : rankOf prio arrived t < rankOf prio arrived s := Prod.Lex.toLex_lt_toLex.mpr (Or.inl hlt)
      refine List.pairwise_cons.mpr ⟨fun u hu => ?_, h⟩
      rcases List.mem_cons.mp hu with rfl | hu
      · exact hts
      · exact hts.trans (hfirst u hu)
    · rename_i hge
      have hst : rankOf prio arrived s < rankOf prio arrived t := by
        refine Prod.Lex.toLex_lt_toLex.mpr ?_
        have harrived := hlate s List.mem_cons_self
        rcases (not_lt.mp hge).lt_or_eq with hlt | heq
        · exact Or.inl hlt
        · exact Or.inr ⟨heq, harrived⟩
      refine List.pairwise_cons.mpr ⟨fun u hu => ?_, ih hrest fun u hu => hlate u (List.mem_cons_of_mem s hu)⟩
      rcases List.mem_cons.mp ((insertByPriority_perm prio t rest).mem_iff.mp hu) with rfl | hu
      · exact hst
      · exact hfirst u hu

omit [DecidableEq T] in
theorem sublist_insertByPriority (prio : T → ℕ) (t : T) (l : List T) : l.Sublist (insertByPriority prio t l) := by
  induction l with
  | nil => exact List.nil_sublist _
  | cons s rest ih =>
    simp only [insertByPriority]
    split
    · exact List.sublist_cons_self t _
    · exact ih.cons_cons s

omit [DecidableEq T] in
theorem Ordered.wakesUrgent {k : Kernel T M O} (h : Ordered k) : WakesUrgent k := by
  intro o t hflag ht u hu
  have hle := (h o hflag).head_le ht hu
  rcases Prod.Lex.toLex_le_toLex.mp hle with hlt | ⟨heq, -⟩
  · exact hlt.le
  · exact heq.le

/-- Where the threads wait. -/
structure Waits (k : Kernel T M O) : Prop where
  placed : ∀ o t, t ∈ (k.object o).suspendThread ↔ k.place t = some o
  nodup : ∀ o, (k.object o).suspendThread.Nodup
  suspended : ∀ t o, k.place t = some o → (k.sched.thread t).stat = .suspend
  arrived : ∀ t o, k.place t = some o → k.arrived t < k.now
  distinct : ∀ t u o, k.place t = some o → k.place u = some o → k.arrived t = k.arrived u → t = u

variable {k k' : Kernel T M O} {t : T} {s : State T} {x : M → RtMutex T}

omit [DecidableEq T] in
theorem Waits.setSched (h : Waits k) (hs : ∀ u o, k.place u = some o → (s.thread u).stat = .suspend) :
    Waits { k with sched := s, mutex := x } :=
  ⟨h.placed, h.nodup, hs, h.arrived, h.distinct⟩

theorem Waits.unlist (h : Waits k) (hs : ∀ u o, u ≠ t → k.place u = some o → (s.thread u).stat = .suspend) :
    Waits { unlist k t with sched := s, mutex := x } := by
  have hplace : ∀ u o, Function.update k.place t none u = some o ↔ u ≠ t ∧ k.place u = some o := by
    intro u o
    by_cases hu : u = t
    · simp [hu]
    · simp [hu]
  refine ⟨fun o u => ?_, fun o => (h.nodup o).erase t, fun u o hu => ?_, fun u o hu => ?_, fun u v o hu hv => ?_⟩
  · exact ((h.nodup o).mem_erase_iff.trans (and_congr_right' (h.placed o u))).trans (hplace u o).symm
  · exact hs u o ((hplace u o).mp hu).1 ((hplace u o).mp hu).2
  · exact h.arrived u o ((hplace u o).mp hu).2
  · exact h.distinct u v o ((hplace u o).mp hu).2 ((hplace v o).mp hv).2

omit [DecidableEq T] in
theorem ordered_congr (hobject : k'.object = k.object) (hrank : ∀ o, ∀ u ∈ (k.object o).suspendThread, k'.rank u = k.rank u) :
    Ordered k' ↔ Ordered k := by
  refine forall_congr' fun o => ?_
  rw [hobject]
  exact imp_congr_right fun _ => sortedBy_congr (hrank o)

omit [DecidableEq T] in
theorem Kernel.rank_eq (harrived : k'.arrived t = k.arrived t) (hprio : k'.prio t = k.prio t) : k'.rank t = k.rank t := by
  rw [Kernel.rank, Kernel.rank, rankOf, rankOf, harrived, hprio]

theorem Ordered.unlist (h : Waits k) (ho : Ordered k)
    (hs : ∀ u o, u ≠ t → k.place u = some o → (s.thread u).currentPriority = k.prio u) :
    Ordered { unlist k t with sched := s } := by
  intro o hflag
  have hsub : SortedBy k.rank ((k.object o).suspendThread.erase t) := (ho o hflag).sublist List.erase_sublist
  refine (sortedBy_congr fun u hu => ?_).mpr hsub
  obtain ⟨hut, hu⟩ := (h.nodup o).mem_erase_iff.mp hu
  exact Kernel.rank_eq rfl (hs u o hut ((h.placed o u).mp hu))

omit [DecidableEq T] in
theorem ordered_setSched (h : Waits k) (hs : ∀ u o, k.place u = some o → (s.thread u).currentPriority = k.prio u) :
    Ordered { k with sched := s, mutex := x } ↔ Ordered k :=
  ordered_congr rfl fun o u hu => Kernel.rank_eq rfl (hs u o ((h.placed o u).mp hu))

theorem ordered_control (h : Waits k) (ho : Ordered k) {priority : ℕ}
    (hs : ∀ u o, k.place u = some o → (s.thread u).currentPriority = if u = t then priority else k.prio u) :
    Ordered { k with sched := s, mutex := x } ↔ KeepsPlace k t priority := by
  have hrank : ∀ o, ∀ u ∈ (k.object o).suspendThread,
      Kernel.rank { k with sched := s, mutex := x } u = Function.update k.rank t (toLex (priority, k.arrived t)) u := by
    intro o u hu
    have hprio := hs u o ((h.placed o u).mp hu)
    by_cases hut : u = t
    · rw [if_pos hut] at hprio
      rw [hut, Function.update_self, Kernel.rank, rankOf, ← hut]
      exact congrArg (fun p => toLex (p, k.arrived u)) hprio
    · rw [if_neg hut] at hprio
      rw [Function.update_of_ne hut]
      exact Kernel.rank_eq rfl hprio
  constructor
  · intro ho' o hplace hflag u hu hut
    have hmem := (h.placed o t).mpr hplace
    refine (((ho o hflag).update_iff hmem ?_).mp ((sortedBy_congr (hrank o)).mp (ho' o hflag))) u hu hut
    intro v hv hvt heq
    exact hvt (h.distinct v t o ((h.placed o v).mp hv) hplace (congrArg (fun r => (ofLex r).2) heq))
  · intro hkeeps o hflag
    refine (sortedBy_congr (hrank o)).mpr ?_
    by_cases hmem : t ∈ (k.object o).suspendThread
    · have hplace := (h.placed o t).mp hmem
      refine ((ho o hflag).update_iff hmem ?_).mpr (hkeeps o hplace hflag)
      intro v hv hvt heq
      exact hvt (h.distinct v t o ((h.placed o v).mp hv) hplace (congrArg (fun r => (ofLex r).2) heq))
    · have hsame : ∀ u ∈ (k.object o).suspendThread,
          Function.update k.rank t (toLex (priority, k.arrived t)) u = k.rank u := by
        intro u hu
        refine Function.update_of_ne ?_ _ _
        rintro rfl
        exact hmem hu
      exact (sortedBy_congr hsame).mpr (ho o hflag)

/-- The parts of a kernel in which `t` has joined the list of `o`. -/
structure Joined [DecidableEq M] [DecidableEq O] (k k' : Kernel T M O) (o : M ⊕ O) (t : T) : Prop where
  mutex : k'.mutex = k.mutex
  object : k'.object = Function.update k.object o { k.object o with
    suspendThread := rtIpcListSuspend (k.object o).flag k.prio (k.object o).suspendThread t }
  place : k'.place = Function.update k.place t (some o)
  arrived : k'.arrived = Function.update k.arrived t k.now
  now : k'.now = k.now + 1
  free : k.place t = none
  others : ∀ u, u ≠ t → (k.sched.thread u).stat = .suspend → StaysSuspended k.sched k'.sched u
  suspended : (k'.sched.thread t).stat = .suspend
  prio : k'.prio t = k.prio t

variable [DecidableEq M] [DecidableEq O] {o : M ⊕ O} {time : ℤ}

theorem suspend_joined (hmax : prioMax ≤ 256) (hr : Ready prioMax k) (hs : suspend prioMax k o t time = some k') :
    Joined k k' o t := by
  simp only [suspend, Option.ite_none_left_eq_some, Option.bind_eq_some_iff, Option.map_eq_some_iff] at hs
  obtain ⟨hguard, r, hsuspend, s', hsched, rfl⟩ := hs
  have hplace : k.place t = none := by
    cases hp : k.place t with
    | none => rfl
    | some o => exact absurd (Or.inl (by rw [hp]; rfl)) hguard
  have hstat : (k.sched.thread t).stat ∈ [Stat.running, .suspend] := by
    by_contra hnot
    exact hguard (Or.inr hnot)
  have hinv := rtThreadSuspend_inv hmax hr.sched hsuspend
  have htimer : Inv prioMax (if 0 < time then rtTimerStart r.1 t else r.1) := by
    split
    · exact rtTimerStart_inv hinv
    · exact hinv
  have hafter : ∀ u, (r.1.thread u).stat = .suspend → StaysSuspended r.1 s' u := by
    intro u hu
    have hstays : StaysSuspended r.1 (if 0 < time then rtTimerStart r.1 t else r.1) u := by
      split
      · exact setThread_staysSuspended hu fun _ => ⟨rfl, rfl⟩
      · exact ⟨hu, rfl⟩
    exact hstays.trans (rtSchedule_staysSuspended hmax htimer hstays.1 hsched)
  obtain ⟨hself, hprio⟩ := rtThreadSuspend_suspends hstat hsuspend
  refine ⟨rfl, rfl, rfl, rfl, rfl, hplace, fun u _ hu => ?_, (hafter t hself).1, (hafter t hself).2.trans hprio⟩
  have hstays := rtThreadSuspend_staysSuspended hu hsuspend
  exact hstays.trans (hafter u hstays.1)

theorem Joined.not_mem (hj : Joined k k' o t) (h : Waits k) (o' : M ⊕ O) : t ∉ (k.object o').suspendThread := by
  intro hmem
  have hplace := (h.placed o' t).mp hmem
  rw [hj.free] at hplace
  cases hplace

theorem Joined.place_iff (hj : Joined k k' o t) (u : T) (o' : M ⊕ O) :
    k'.place u = some o' ↔ u = t ∧ o' = o ∨ u ≠ t ∧ k.place u = some o' := by
  rw [hj.place]
  by_cases hut : u = t
  · simp [hut, eq_comm]
  · simp [hut]

theorem Joined.object_eq (hj : Joined k k' o t) {o' : M ⊕ O} (ho : o' ≠ o) : k'.object o' = k.object o' := by
  rw [hj.object, Function.update_of_ne ho]

theorem Joined.arrived_eq (hj : Joined k k' o t) {u : T} (hut : u ≠ t) : k'.arrived u = k.arrived u := by
  rw [hj.arrived, Function.update_of_ne hut]

theorem Joined.waits (hj : Joined k k' o t) (h : Waits k) : Waits k' := by
  have hself : k'.arrived t = k.now := by rw [hj.arrived, Function.update_self]
  have hearlier : ∀ u o', u ≠ t → k.place u = some o' → k'.arrived u < k.now := by
    intro u o' hut hu
    rw [hj.arrived_eq hut]
    exact h.arrived u o' hu
  refine ⟨fun o' u => ?_, fun o' => ?_, fun u o' hu => ?_, fun u o' hu => ?_, fun u v o' hu hv heq => ?_⟩
  · rw [hj.place_iff]
    by_cases ho : o' = o
    · subst ho
      rw [hj.object, Function.update_self]
      simp only [mem_rtIpcListSuspend, h.placed]
      by_cases hut : u = t
      · simp [hut]
      · simp [hut]
    · rw [hj.object_eq ho, h.placed]
      constructor
      · intro hu
        refine Or.inr ⟨?_, hu⟩
        rintro rfl
        rw [hj.free] at hu
        cases hu
      · exact fun hu => (hu.resolve_left fun hnew => ho hnew.2).2
  · by_cases ho : o' = o
    · subst ho
      rw [hj.object, Function.update_self]
      exact nodup_rtIpcListSuspend.mpr ⟨hj.not_mem h o', h.nodup o'⟩
    · rw [hj.object_eq ho]
      exact h.nodup o'
  · rcases (hj.place_iff u o').mp hu with ⟨rfl, -⟩ | ⟨hut, hu⟩
    · exact hj.suspended
    · exact (hj.others u hut (h.suspended u o' hu)).1
  · rw [hj.now]
    rcases (hj.place_iff u o').mp hu with ⟨rfl, -⟩ | ⟨hut, hu⟩
    · omega
    · exact (hearlier u o' hut hu).trans (Nat.lt_succ_self _)
  · rcases (hj.place_iff u o').mp hu with ⟨hut, rfl⟩ | ⟨hut, hu⟩
    · rcases (hj.place_iff v o').mp hv with ⟨hvt, -⟩ | ⟨hvt, hv⟩
      · rw [hut, hvt]
      · have hlt := hearlier v o' hvt hv
        rw [← heq, hut, hself] at hlt
        exact absurd hlt (lt_irrefl _)
    · rcases (hj.place_iff v o').mp hv with ⟨hvt, rfl⟩ | ⟨hvt, hv⟩
      · have hlt := hearlier u o' hut hu
        rw [heq, hvt, hself] at hlt
        exact absurd hlt (lt_irrefl _)
      · rw [hj.arrived_eq hut, hj.arrived_eq hvt] at heq
        exact h.distinct u v o' hu hv heq

theorem Joined.ordered_iff (hj : Joined k k' o t) (h : Waits k) : Ordered k' ↔ Ordered k := by
  have hrank : ∀ o', ∀ u ∈ (k.object o').suspendThread, k'.rank u = k.rank u := by
    intro o' u hu
    have hut : u ≠ t := by
      rintro rfl
      exact hj.not_mem h o' hu
    exact Kernel.rank_eq (hj.arrived_eq hut) (hj.others u hut (h.suspended u o' ((h.placed o' u).mp hu))).2
  refine forall_congr' fun o' => ?_
  by_cases ho : o' = o
  · subst ho
    rw [hj.object, Function.update_self]
    refine imp_congr_right fun hflag => ?_
    have hflag : (k.object o').flag = .prio := hflag
    show SortedBy k'.rank (rtIpcListSuspend (k.object o').flag k.prio (k.object o').suspendThread t) ↔ _
    rw [hflag, rtIpcListSuspend]
    have hnew : ∀ u ∈ insertByPriority k.prio t (k.object o').suspendThread,
        k'.rank u = rankOf k.prio k'.arrived u := by
      intro u hu
      rw [Kernel.rank, rankOf, rankOf]
      rcases List.mem_cons.mp ((insertByPriority_perm k.prio t _).mem_iff.mp hu) with rfl | hu
      · rw [hj.prio]
      · have hprio := congrArg (fun r => (ofLex r).1) (hrank o' u hu)
        exact congrArg (fun p => toLex (p, k'.arrived u)) hprio
    constructor
    · intro hsorted
      exact (sortedBy_congr (hrank o')).mp (hsorted.sublist (sublist_insertByPriority k.prio t _))
    · intro hsorted
      refine (sortedBy_congr hnew).mpr (insertByPriority_sortedBy ?_ fun u hu => ?_)
      · refine (sortedBy_congr fun u hu => ?_).mp ((sortedBy_congr (hrank o')).mpr hsorted)
        exact hnew u (List.Sublist.mem hu (sublist_insertByPriority k.prio t _))
      · have hut : u ≠ t := by
          rintro rfl
          exact hj.not_mem h o' hu
        rw [hj.arrived_eq hut, hj.arrived, Function.update_self]
        exact h.arrived u o' ((h.placed o' u).mp hu)
  · rw [hj.object_eq ho]
    exact imp_congr_right fun _ => sortedBy_congr (hrank o')

end Order

end RtThread.Sched.WaitLists
