import RtThread.Sched.SchedulerRuns

/-!
# Closed threads and the idle thread (`thread.c:80-115`, `thread.c:329-459`, `idle.c:126-235`)

A closed thread never gets the CPU again, and waits in the list of defunct threads for the idle thread, which frees
its stack and its object or, when it is a system object, detaches it.
-/

namespace RtThread.Sched.Defunct

open RtThread.Lib.Transition RtThread.Sched.Scheduler
open RtThread.Ipc.Base (RtErr)

variable {T : Type*} {prioMax : ℕ} {s s' s₂ : State T} {t : T}

def Closed (s : State T) (t : T) : Prop := (s.thread t).stat = .close

/-! ### Calls that close no thread -/

/-- No thread is closed or opened, the list of defunct threads stays, and the CPU goes to no closed thread. -/
structure SameClosed (s s' : State T) : Prop where
  closed : ∀ t, Closed s' t ↔ Closed s t
  isSystem : ∀ t, (s'.thread t).isSystem = (s.thread t).isSystem
  cleanup : ∀ t, (s'.thread t).cleanup = (s.thread t).cleanup
  defunct : s'.defunct = s.defunct
  current : ∀ t, s'.currentThread = some t → s.currentThread = some t ∨ ¬Closed s t

theorem SameClosed.refl (s : State T) : SameClosed s s :=
  ⟨fun _ => Iff.rfl, fun _ => rfl, fun _ => rfl, rfl, fun _ h => .inl h⟩

theorem SameClosed.trans (h : SameClosed s s') (h' : SameClosed s' s₂) : SameClosed s s₂ where
  closed t := (h'.closed t).trans (h.closed t)
  isSystem t := (h'.isSystem t).trans (h.isSystem t)
  cleanup t := (h'.cleanup t).trans (h.cleanup t)
  defunct := h'.defunct.trans h.defunct
  current t ht := by
    obtain ht | ht := h'.current t ht
    · exact h.current t ht
    · exact .inr fun hclosed => ht ((h.closed t).mpr hclosed)

theorem SameClosed.of_thread_eq (hthread : s'.thread = s.thread) (hdefunct : s'.defunct = s.defunct)
    (hcurrent : ∀ t, s'.currentThread = some t → s.currentThread = some t ∨ ¬Closed s t) : SameClosed s s' :=
  ⟨fun t => by rw [Closed, hthread]; rfl, fun t => by rw [hthread], fun t => by rw [hthread], hdefunct, hcurrent⟩

/-- The list of defunct threads holds closed threads only. -/
def DefunctOk (s : State T) : Prop := ∀ t ∈ s.defunct, Closed s t

theorem DefunctOk.notMem (h : DefunctOk s) (ht : ¬Closed s t) : t ∉ s.defunct := fun hmem => ht (h t hmem)

theorem SameClosed.defunctOk (h : SameClosed s s') (hd : DefunctOk s) : DefunctOk s' := fun t ht =>
  (h.closed t).mpr (hd t (h.defunct ▸ ht))

theorem not_closed {stat : Stat} (h : (s.thread t).stat = stat) (hne : stat ≠ .close) : ¬Closed s t := fun hclosed =>
  hne (h.symm.trans hclosed)

variable [DecidableEq T]

theorem setThread_sameClosed {f : Thread → Thread} (hstat : (f (s.thread t)).stat = .close ↔ Closed s t)
    (hkind : (f (s.thread t)).isSystem = (s.thread t).isSystem ∧ (f (s.thread t)).cleanup = (s.thread t).cleanup) :
    SameClosed s (s.setThread t f) := by
  have hkeep : ∀ u, (Closed (s.setThread t f) u ↔ Closed s u) ∧
      ((s.setThread t f).thread u).isSystem = (s.thread u).isSystem ∧
      ((s.setThread t f).thread u).cleanup = (s.thread u).cleanup := by
    intro u
    by_cases hut : u = t
    · rw [hut, Closed, setThread_self]
      exact ⟨hstat, hkind⟩
    · rw [Closed, setThread_of_ne hut]
      exact ⟨Iff.rfl, rfl, rfl⟩
  exact ⟨fun u => (hkeep u).1, fun u => (hkeep u).2.1, fun u => (hkeep u).2.2, rfl, fun _ h => .inl h⟩

theorem setStat_sameClosed (ht : ¬Closed s t) {stat : Stat} (hstat : stat ≠ .close) :
    SameClosed s (s.setStat t stat) :=
  setThread_sameClosed (iff_of_false hstat ht) ⟨rfl, rfl⟩

theorem rtListRemove_sameClosed (ht : t ∉ s.defunct) : SameClosed s (rtListRemove s t) :=
  .of_thread_eq rfl (List.erase_of_not_mem ht) fun _ h => .inl h

@[simp] theorem remove_defunct (prioMax : ℕ) (s : State T) (t : T) :
    (rtScheduleRemoveThread prioMax s t).defunct = s.defunct.erase t := by
  simp only [rtScheduleRemoveThread]
  split <;> rfl

theorem remove_sameClosed (ht : t ∉ s.defunct) : SameClosed s (rtScheduleRemoveThread prioMax s t) := by
  refine .of_thread_eq (remove_thread prioMax s t) ?_ fun u hu => .inl ?_
  · rw [remove_defunct, List.erase_of_not_mem ht]
  · rwa [remove_currentThread] at hu

theorem insert_sameClosed (ht : ¬Closed s t) : SameClosed s (rtScheduleInsertThread prioMax s t) := by
  simp only [rtScheduleInsertThread]
  split
  · exact setStat_sameClosed ht (by decide)
  · have hready := @setStat_sameClosed T s t _ ht .ready (by decide)
    exact hready.trans (.of_thread_eq rfl rfl fun _ h => .inl h)

theorem switchTo_sameClosed (hd : DefunctOk s) {current toThread : T} (hto : ¬Closed s toThread) {needInsert : Bool}
    (hneed : needInsert = true → ¬Closed s current) :
    SameClosed s (switchTo prioMax s current toThread needInsert) := by
  have hcurrent : SameClosed s { s with currentThread := some toThread } :=
    .of_thread_eq rfl rfl fun u hu => .inr (Option.some.inj hu ▸ hto)
  have hinsert : SameClosed s (if needInsert then
      rtScheduleInsertThread prioMax { s with currentThread := some toThread } current
      else { s with currentThread := some toThread }) := by
    split
    · rename_i hn
      exact hcurrent.trans (insert_sameClosed (hneed hn))
    · exact hcurrent
  have hto' := fun h => hto ((hinsert.closed toThread).mp h)
  have hremove : SameClosed _ (rtScheduleRemoveThread prioMax _ toThread) :=
    hinsert.trans (remove_sameClosed ((hinsert.defunctOk hd).notMem hto'))
  exact hremove.trans (setStat_sameClosed (fun h => hto ((hremove.closed toThread).mp h)) (by decide))

theorem rtSchedule_sameClosed (h : Scheduler.Inv prioMax s) (hd : DefunctOk s) (hs : rtSchedule prioMax s = some s') :
    SameClosed s s' := by
  simp only [rtSchedule] at hs
  split at hs
  · simp only [Option.bind_eq_some_iff, Option.map_eq_some_iff] at hs
    obtain ⟨⟨toThread, highest⟩, hget, current, hcur, rfl⟩ := hs
    obtain ⟨hready, -⟩ := getHighestPriorityThread_spec h.lists hget
    have hto : ¬Closed s toThread := not_closed hready (by decide)
    have hne : toThread ≠ current := by
      rintro rfl
      exact h.current toThread hcur hready
    simp only [chooseThread]
    split
    · rename_i hrun
      have hopen : ¬Closed s current := not_closed hrun (by decide)
      split
      · simp only [ne_eq, not_true_eq_false, if_false]
        have hremove : SameClosed s (rtScheduleRemoveThread prioMax s current) := remove_sameClosed (hd.notMem hopen)
        exact hremove.trans (setStat_sameClosed (fun hc => hopen ((hremove.closed current).mp hc)) (by decide))
      · exact switchTo_sameClosed hd hto fun _ => hopen
    · exact switchTo_sameClosed hd hto fun hn => absurd hn Bool.false_ne_true
  · cases hs
    exact .refl s

/-- The thread that a call closes. -/
def closing (s : State T) : Scheduler.Act T → Option T
  | .delete t => some t
  | .detach t => some t
  | .exit => s.currentThread
  | _ => none

theorem resume_sameClosed (hd : DefunctOk s) : SameClosed s (rtThreadResume prioMax s t).1 := by
  simp only [rtThreadResume]
  split
  · exact .refl s
  · rename_i hstat
    have hopen : ¬Closed s t := not_closed (not_not.mp hstat) (by decide)
    have hout := (rtListRemove_sameClosed (hd.notMem hopen)).trans (@setThread_sameClosed T _ t _
      (fun th => { th with threadTimer := false }) Iff.rfl ⟨rfl, rfl⟩)
    exact hout.trans (insert_sameClosed fun hc => hopen ((hout.closed t).mp hc))

theorem suspend_sameClosed (hd : DefunctOk s) {r : State T × RtErr} (hr : rtThreadSuspend prioMax s t = some r) :
    SameClosed s r.1 := by
  simp only [rtThreadSuspend] at hr
  split at hr
  · cases hr
    exact .refl s
  · rename_i hstat
    split at hr
    · cases hr
    · cases hr
      have hopen : ¬Closed s t := fun hc => hstat (by rw [show (s.thread t).stat = .close from hc]; decide)
      have hremove : SameClosed s (rtScheduleRemoveThread prioMax s t) := remove_sameClosed (hd.notMem hopen)
      exact hremove.trans (@setThread_sameClosed T _ t _ (fun th => { th with stat := .suspend, threadTimer := false })
        (iff_of_false Stat.noConfusion fun hc => hopen ((hremove.closed t).mp hc)) ⟨rfl, rfl⟩)

theorem control_sameClosed (hd : DefunctOk s) (priority : ℕ) : SameClosed s (rtThreadControl prioMax s t priority) := by
  simp only [rtThreadControl]
  split
  · rename_i hready
    have hopen : ¬Closed s t := not_closed hready (by decide)
    have hremove : SameClosed s (rtScheduleRemoveThread prioMax s t) := remove_sameClosed (hd.notMem hopen)
    have hchange := hremove.trans (@setThread_sameClosed T _ t _ (fun th =>
      { th with currentPriority := priority, masks := Bitmap.masksOf prioMax priority }) Iff.rfl ⟨rfl, rfl⟩)
    exact hchange.trans (insert_sameClosed fun hc => hopen ((hchange.closed t).mp hc))
  · exact setThread_sameClosed Iff.rfl ⟨rfl, rfl⟩

theorem exitCritical_sameClosed (h : Scheduler.Inv prioMax s) (hd : DefunctOk s)
    (hs : rtExitCritical prioMax s = some s') : SameClosed s s' := by
  have hnest : ∀ nest, SameClosed s { s with lockNest := nest } := fun nest => .of_thread_eq rfl rfl fun _ h => .inl h
  simp only [rtExitCritical] at hs
  split at hs
  · split at hs
    · exact (hnest 0).trans (rtSchedule_sameClosed (lockNest_inv h 0) ((hnest 0).defunctOk hd) hs)
    · cases hs
      exact hnest 0
  · cases hs
    exact hnest _

theorem call_sameClosed (hmax : prioMax ≤ 256) {a : Scheduler.Act T} (h : Scheduler.Inv prioMax s) (hd : DefunctOk s)
    (hs : Scheduler.step prioMax s a = some s') (hnone : closing s a = none) : SameClosed s s' := by
  cases a with
  | start =>
    simp only [Scheduler.step, rtSystemSchedulerStart, Option.ite_none_right_eq_some, Option.ite_none_left_eq_some,
      Option.map_eq_some_iff] at hs
    obtain ⟨-, -, ⟨toThread, highest⟩, hget, rfl⟩ := hs
    have hto : ¬Closed s toThread := not_closed (getHighestPriorityThread_spec h.lists hget).1 (by decide)
    exact @switchTo_sameClosed T prioMax s _ hd toThread toThread hto false fun hn => absurd hn Bool.false_ne_true
  | startup t =>
    simp only [Scheduler.step, rtThreadStartup, ne_eq, ite_not, Option.ite_none_right_eq_some] at hs
    obtain ⟨hinit, hs⟩ := hs
    have hset := @setThread_sameClosed T s t _ (fun th => { th with
      currentPriority := th.initPriority, masks := Bitmap.masksOf prioMax th.initPriority, stat := .suspend })
      (iff_of_false Stat.noConfusion (not_closed hinit (by decide))) ⟨rfl, rfl⟩
    have hresume : SameClosed _ (rtThreadResume prioMax _ t).1 := hset.trans (resume_sameClosed (hset.defunctOk hd))
    split at hs
    · exact hresume.trans (rtSchedule_sameClosed (startup_inv hmax h hinit) (hresume.defunctOk hd) hs)
    · cases hs
      exact hresume
  | suspend t =>
    obtain ⟨r, hr, rfl⟩ := Option.map_eq_some_iff.mp hs
    exact suspend_sameClosed hd hr
  | resume t =>
    cases hs
    exact resume_sameClosed hd
  | yield => exact rtSchedule_sameClosed h hd hs
  | sleep =>
    simp only [Scheduler.step, rtThreadSleep, Option.bind_eq_some_iff] at hs
    obtain ⟨t, -, r, hr, hs⟩ := hs
    have htimer : SameClosed s (rtTimerStart r.1 t) :=
      (suspend_sameClosed hd hr).trans (setThread_sameClosed Iff.rfl ⟨rfl, rfl⟩)
    exact htimer.trans (rtSchedule_sameClosed (rtTimerStart_inv (rtThreadSuspend_inv hmax h hr))
      (htimer.defunctOk hd) hs)
  | sleepReturn =>
    simp only [Scheduler.step, rtThreadSleepReturn, Option.map_eq_some_iff] at hs
    obtain ⟨t, -, rfl⟩ := hs
    split
    · exact setThread_sameClosed Iff.rfl ⟨rfl, rfl⟩
    · exact .refl s
  | timerStart t =>
    cases hs
    exact setThread_sameClosed Iff.rfl ⟨rfl, rfl⟩
  | control t priority =>
    simp only [Scheduler.step, Option.ite_none_right_eq_some, Option.some.injEq] at hs
    obtain ⟨-, rfl⟩ := hs
    exact control_sameClosed hd priority
  | delete t => cases hnone
  | detach t => cases hnone
  | exit =>
    simp only [Scheduler.step, rtThreadExit, Option.bind_eq_some_iff] at hs
    obtain ⟨t, hcur, -⟩ := hs
    exact absurd (hcur.symm.trans hnone) (Option.some_ne_none t)
  | timeout t =>
    simp only [Scheduler.step, rtThreadTimeout, Option.ite_none_right_eq_some] at hs
    obtain ⟨-, hstat, hs⟩ := hs
    have hopen : ¬Closed s t := not_closed hstat (by decide)
    have hout := (rtListRemove_sameClosed (hd.notMem hopen)).trans (@setThread_sameClosed T _ t _
      (fun th => { th with error := .etimeout, threadTimer := false }) Iff.rfl ⟨rfl, rfl⟩)
    have hinsert : SameClosed _ (rtScheduleInsertThread prioMax _ t) :=
      hout.trans (insert_sameClosed fun hc => hopen ((hout.closed t).mp hc))
    have hinv := @Inv.wake T _ prioMax s t hmax h hstat (fun th => { th with error := .etimeout, threadTimer := false })
      fun _ => ⟨rfl, rfl, rfl⟩
    exact hinsert.trans (rtSchedule_sameClosed hinv (hinsert.defunctOk hd) hs)
  | schedule => exact rtSchedule_sameClosed h hd hs
  | enterCritical =>
    cases hs
    exact .of_thread_eq rfl rfl fun _ h => .inl h
  | exitCritical => exact exitCritical_sameClosed h hd hs

/-! ### Calls that close a thread -/

/-- `t` is closed, and put at the head of the list of defunct threads unless it is detached at once. -/
structure Closes (s s' : State T) (t : T) : Prop where
  closed : ∀ u, Closed s' u ↔ u = t ∨ Closed s u
  isSystem : ∀ u, (s'.thread u).isSystem = (s.thread u).isSystem
  cleanup : ∀ u, (s'.thread u).cleanup = (s.thread u).cleanup
  defunct : s'.defunct =
    (if (s.thread t).isSystem = true ∧ (s.thread t).cleanup = false then [] else [t]) ++ s.defunct.erase t
  current : ∀ u, s'.currentThread = some u → s.currentThread = some u ∨ ¬Closed s u

theorem Closes.then (h : Closes s s' t) (h' : SameClosed s' s₂) : Closes s s₂ t where
  closed u := (h'.closed u).trans (h.closed u)
  isSystem u := (h'.isSystem u).trans (h.isSystem u)
  cleanup u := (h'.cleanup u).trans (h.cleanup u)
  defunct := h'.defunct.trans h.defunct
  current u hu := by
    obtain hu | hu := h'.current u hu
    · exact h.current u hu
    · exact .inr fun hclosed => hu ((h.closed u).mpr (.inr hclosed))

def markClosed (s : State T) (t : T) : State T :=
  s.setThread t fun th => { th with stat := .close, threadTimer := false }

/-- The list of defunct threads gets the thread, or it is a system object without a cleanup function. -/
def settle (s : State T) (t : T) (th : Thread) : State T :=
  if th.isSystem = true ∧ th.cleanup = false then markClosed s t else insertDefunct (markClosed s t) t

theorem settle_closes (hthread : s₂.thread = s.thread) (hdefunct : s₂.defunct = s.defunct.erase t)
    (hcurrent : s₂.currentThread = s.currentThread) : Closes s (settle s₂ t (s.thread t)) t := by
  have hkeep : ∀ u, (Closed (markClosed s₂ t) u ↔ u = t ∨ Closed s u) ∧
      ((markClosed s₂ t).thread u).isSystem = (s.thread u).isSystem ∧
      ((markClosed s₂ t).thread u).cleanup = (s.thread u).cleanup := by
    intro u
    by_cases hut : u = t
    · rw [hut, Closed, markClosed, setThread_self, hthread]
      exact ⟨iff_of_true rfl (.inl rfl), rfl, rfl⟩
    · rw [Closed, markClosed, setThread_of_ne hut, hthread]
      exact ⟨(or_iff_right hut).symm, rfl, rfl⟩
  unfold settle
  split
  · rename_i hkind
    exact ⟨fun u => (hkeep u).1, fun u => (hkeep u).2.1, fun u => (hkeep u).2.2, by rw [if_pos hkind]; exact hdefunct,
      fun u hu => .inl (hcurrent ▸ hu)⟩
  · rename_i hkind
    exact ⟨fun u => (hkeep u).1, fun u => (hkeep u).2.1, fun u => (hkeep u).2.2,
      by rw [if_neg hkind]; exact congrArg (t :: ·) hdefunct, fun u hu => .inl (hcurrent ▸ hu)⟩

theorem closeThread_closes (hd : DefunctOk s) :
    Closes s (if (s.thread t).isSystem = true ∧ (s.thread t).cleanup = false then closeThread prioMax s t
      else insertDefunct (closeThread prioMax s t) t) t := by
  by_cases hinit : (s.thread t).stat ≠ .init
  · simp only [closeThread, if_pos hinit]
    exact settle_closes (remove_thread prioMax s t) (remove_defunct prioMax s t) (remove_currentThread prioMax s t)
  · have hopen : ¬Closed s t := not_closed (not_not.mp hinit) (by decide)
    simp only [closeThread, if_neg hinit]
    exact settle_closes rfl (List.erase_of_not_mem (hd.notMem hopen)).symm rfl

theorem call_closes (hmax : prioMax ≤ 256) {a : Scheduler.Act T} (h : Scheduler.Inv prioMax s) (hd : DefunctOk s)
    (hs : Scheduler.step prioMax s a = some s') (ht : closing s a = some t) : Closes s s' t := by
  cases a with
  | delete u =>
    cases ht
    simp only [Scheduler.step, rtThreadDelete, Option.ite_none_left_eq_some, Option.some.injEq] at hs
    obtain ⟨hsystem, rfl⟩ := hs
    have hcloses := @closeThread_closes T prioMax s t _ hd
    rwa [if_neg fun hkind => hsystem hkind.1] at hcloses
  | detach u =>
    cases ht
    simp only [Scheduler.step, rtThreadDetach, Option.ite_none_right_eq_some] at hs
    obtain ⟨hsystem, hs⟩ := hs
    have hcloses := @closeThread_closes T prioMax s t _ hd
    have hcleanup : ((closeThread prioMax s t).thread t).cleanup = (s.thread t).cleanup := by
      have hkind := hcloses.cleanup t
      split at hkind <;> exact hkind
    rw [hcleanup] at hs
    split at hs
    · rename_i hc
      cases hs
      rwa [if_neg fun hkind => by rw [hc] at hkind; cases hkind.2] at hcloses
    · rename_i hc
      cases hs
      rwa [if_pos ⟨hsystem, Bool.eq_false_iff.mpr hc⟩] at hcloses
  | exit =>
    simp only [Scheduler.step, rtThreadExit, show s.currentThread = some t from ht, Option.bind_some] at hs
    have hcloses := settle_closes (remove_thread prioMax s t) (remove_defunct prioMax s t)
      (remove_currentThread prioMax s t)
    have hd' : DefunctOk (settle (rtScheduleRemoveThread prioMax s t) t (s.thread t)) := by
      intro u hu
      rw [hcloses.defunct, List.mem_append] at hu
      refine (hcloses.closed u).mpr ?_
      obtain hu | hu := hu
      · split at hu
        · cases hu
        · exact .inl (List.mem_singleton.mp hu)
      · exact .inr (hd u (List.mem_of_mem_erase hu))
    have hinv : Scheduler.Inv prioMax (settle (rtScheduleRemoveThread prioMax s t) t (s.thread t)) := by
      unfold settle
      split
      · exact exit_inv hmax h t
      · exact insertDefunct_inv (exit_inv hmax h t)
    rw [setThread_self, remove_thread] at hs
    exact hcloses.then (rtSchedule_sameClosed hinv hd' hs)
  | _ => cases ht

end RtThread.Sched.Defunct
