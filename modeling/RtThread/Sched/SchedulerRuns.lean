import RtThread.Sched.Scheduler

/-!
# Runs of the scheduler

The ready lists hold exactly the ready threads, each in the list of its priority, and the
bitmap has the bits of the lists that are not empty. While a function moves a thread `t`,
this holds of all other threads: `Consistent prioMax s (some t)`.
-/

namespace RtThread.Sched.Scheduler

open RtThread.Lib.Transition RtThread.Sched.Bitmap RtThread.Ipc.Base

variable {T : Type*}

/-- The masks of a thread are those of its priority, or zero as long as it was not started. -/
def Thread.MasksOk (prioMax : ℕ) (th : Thread) : Prop :=
  th.masks = masksOf prioMax th.currentPriority ∨
    ((th.stat = .init ∨ th.stat = .close) ∧ th.masks = Masks.zero)

theorem Thread.MasksOk.masks_eq {prioMax : ℕ} {th : Thread} (h : th.MasksOk prioMax)
    (hinit : th.stat ≠ .init) (hclose : th.stat ≠ .close) :
    th.masks = masksOf prioMax th.currentPriority := by
  rcases h with h | ⟨h | h, -⟩
  · exact h
  · exact absurd h hinit
  · exact absurd h hclose

theorem Thread.MasksOk.close {prioMax : ℕ} {th : Thread} (h : th.MasksOk prioMax) :
    ({ th with stat := .close, threadTimer := false } : Thread).MasksOk prioMax := by
  rcases h with h | ⟨-, h⟩
  · exact Or.inl h
  · exact Or.inr ⟨Or.inr rfl, h⟩

structure Consistent (prioMax : ℕ) (s : State T) (out : Option T) : Prop where
  marked : ∀ p, s.bits.Marked prioMax p ↔ s.priorityTable p ≠ []
  grouped : s.bits.Grouped prioMax
  nodup : ∀ p, (s.priorityTable p).Nodup
  listed : ∀ p t, t ∈ s.priorityTable p ↔
    out ≠ some t ∧ (s.thread t).stat = .ready ∧ (s.thread t).currentPriority = p
  prio : ∀ t, out ≠ some t → (s.thread t).currentPriority < prioMax
  prioInit : ∀ t, (s.thread t).initPriority < prioMax
  masks : ∀ t, out ≠ some t → (s.thread t).MasksOk prioMax

theorem Consistent.of_eq {prioMax : ℕ} {s s' : State T} {out : Option T} (h : Consistent prioMax s out)
    (htable : s'.priorityTable = s.priorityTable) (hbits : s'.bits = s.bits)
    (hthread : s'.thread = s.thread) : Consistent prioMax s' out := by
  obtain ⟨hmarked, hgrouped, hnodup, hlisted, hprio, hprioInit, hmasks⟩ := h
  constructor <;> simpa only [htable, hbits, hthread]

def CurrentOk (s : State T) : Prop :=
  ∀ t, s.currentThread = some t → (s.thread t).stat ≠ .ready

structure Inv (prioMax : ℕ) (s : State T) : Prop where
  lists : Consistent prioMax s none
  current : CurrentOk s

theorem init_inv {prioMax : ℕ} {thread : T → Thread}
    (hthread : ∀ t, ∃ p isSystem cleanup, p < prioMax ∧ thread t = rtThreadInit p isSystem cleanup) :
    Inv prioMax (rtSystemSchedulerInit thread) := by
  refine ⟨⟨fun p => ?_, empty_grouped prioMax, fun _ => List.nodup_nil, fun p t => ?_, fun t _ => ?_,
    fun t => ?_, fun t _ => ?_⟩, nofun⟩
  · exact iff_of_false (not_marked_empty prioMax p) (not_not.mpr rfl)
  all_goals obtain ⟨q, isSystem, cleanup, hq, ht⟩ := hthread t
  · refine iff_of_false List.not_mem_nil fun h => ?_
    have hready := h.2.1
    simp only [rtSystemSchedulerInit, ht, rtThreadInit] at hready
    cases hready
  · simpa only [rtSystemSchedulerInit, ht, rtThreadInit] using hq
  · simpa only [rtSystemSchedulerInit, ht, rtThreadInit] using hq
  · right
    simp only [rtSystemSchedulerInit, ht, rtThreadInit]
    exact ⟨Or.inl trivial, trivial⟩

variable [DecidableEq T] {prioMax : ℕ} {s : State T} {t : T}

@[simp] theorem setThread_self (f : Thread → Thread) :
    (s.setThread t f).thread t = f (s.thread t) := Function.update_self ..

@[simp] theorem setThread_of_ne {u : T} (hu : u ≠ t) (f : Thread → Thread) :
    (s.setThread t f).thread u = s.thread u := Function.update_of_ne hu _ _

@[simp] theorem remove_thread (prioMax : ℕ) (s : State T) (t : T) :
    (rtScheduleRemoveThread prioMax s t).thread = s.thread := by
  simp only [rtScheduleRemoveThread]
  split <;> rfl

@[simp] theorem remove_currentThread (prioMax : ℕ) (s : State T) (t : T) :
    (rtScheduleRemoveThread prioMax s t).currentThread = s.currentThread := by
  simp only [rtScheduleRemoveThread]
  split <;> rfl

@[simp] theorem insert_currentThread (prioMax : ℕ) (s : State T) (t : T) :
    (rtScheduleInsertThread prioMax s t).currentThread = s.currentThread := by
  simp only [rtScheduleInsertThread]
  split <;> rfl

theorem insert_thread_of_ne (prioMax : ℕ) {u : T} (hu : u ≠ t) :
    (rtScheduleInsertThread prioMax s t).thread u = s.thread u := by
  simp only [rtScheduleInsertThread]
  split
  · exact setThread_of_ne hu _
  · exact Function.update_of_ne hu _ _

theorem setStat_thread (s : State T) (t : T) (stat : Stat) (v : T) :
    (s.setStat t stat).thread v = { s.thread v with stat := if v = t then stat else (s.thread v).stat } := by
  by_cases hv : v = t
  · rw [hv, State.setStat, setThread_self, if_pos rfl]
  · rw [State.setStat, setThread_of_ne hv, if_neg hv]

theorem remove_priorityTable (prioMax : ℕ) (s : State T) (t : T) (p : ℕ) :
    (rtScheduleRemoveThread prioMax s t).priorityTable p = (s.priorityTable p).erase t := by
  simp only [rtScheduleRemoveThread]
  split <;> rfl

theorem insert_lockNest (prioMax : ℕ) (s : State T) (t : T) :
    (rtScheduleInsertThread prioMax s t).lockNest = s.lockNest := by
  simp only [rtScheduleInsertThread]
  split <;> rfl

theorem rtThreadResume_spec (prioMax : ℕ) (s : State T) (v : T) :
    (rtThreadResume prioMax s v).1.currentThread = s.currentThread ∧
      ∀ w, w ≠ v → (rtThreadResume prioMax s v).1.thread w = s.thread w := by
  unfold rtThreadResume
  split
  · exact ⟨rfl, fun _ _ => rfl⟩
  · refine ⟨insert_currentThread prioMax _ v, fun w hw => ?_⟩
    simp only
    rw [insert_thread_of_ne prioMax hw, setThread_of_ne hw]
    rfl

theorem rtThreadSuspend_currentThread {s : State T} {v : T} {r : State T × RtErr}
    (hr : rtThreadSuspend prioMax s v = some r) : r.1.currentThread = s.currentThread := by
  unfold rtThreadSuspend at hr
  split at hr
  · cases hr
    rfl
  · split at hr
    · cases hr
    · cases hr
      exact remove_currentThread prioMax s v

theorem rtThreadControl_currentThread (prioMax : ℕ) (s : State T) (v : T) (priority : ℕ) :
    (rtThreadControl prioMax s v priority).currentThread = s.currentThread := by
  unfold rtThreadControl
  split
  · exact (insert_currentThread prioMax _ v).trans (remove_currentThread prioMax s v)
  · rfl

theorem closeThread_currentThread (prioMax : ℕ) (s : State T) (v : T) :
    (closeThread prioMax s v).currentThread = s.currentThread := by
  unfold closeThread
  simp only [State.setThread]
  split
  · exact remove_currentThread prioMax s v
  · rfl

/-! ### Moving a thread -/

omit [DecidableEq T] in
theorem Consistent.out (h : Consistent prioMax s none) (hstat : (s.thread t).stat ≠ .ready) :
    Consistent prioMax s (some t) := by
  refine ⟨h.marked, h.grouped, h.nodup, fun p u => ?_, fun u _ => h.prio u nofun, h.prioInit,
    fun u _ => h.masks u nofun⟩
  rw [h.listed]
  refine ⟨fun hu => ⟨?_, hu.2⟩, fun hu => ⟨nofun, hu.2⟩⟩
  rintro heq
  cases heq
  exact hstat hu.2.1

theorem Consistent.setThread (h : Consistent prioMax s (some t)) {f : Thread → Thread}
    (hinit : (f (s.thread t)).initPriority = (s.thread t).initPriority) :
    Consistent prioMax (s.setThread t f) (some t) := by
  have hother : ∀ {u}, (some t : Option T) ≠ some u → (s.setThread t f).thread u = s.thread u :=
    fun hu => setThread_of_ne (fun heq => hu (congrArg some heq.symm)) f
  refine ⟨h.marked, h.grouped, h.nodup, fun p u => ?_, fun u hu => ?_, fun u => ?_, fun u hu => ?_⟩
  · refine (h.listed p u).trans (and_congr_right fun hu => ?_)
    rw [hother hu]
  · rw [hother hu]
    exact h.prio u hu
  · by_cases hut : u = t
    · subst hut
      rw [setThread_self, hinit]
      exact h.prioInit u
    · rw [setThread_of_ne hut]
      exact h.prioInit u
  · rw [hother hu]
    exact h.masks u hu

theorem Consistent.settle (h : Consistent prioMax s (some t)) (hstat : (s.thread t).stat ≠ .ready)
    (hprio : (s.thread t).currentPriority < prioMax) (hmasks : (s.thread t).MasksOk prioMax) :
    Consistent prioMax s none := by
  refine ⟨h.marked, h.grouped, h.nodup, fun p u => ?_, fun u _ => ?_, h.prioInit, fun u _ => ?_⟩
  · rw [h.listed]
    refine ⟨fun hu => ⟨nofun, hu.2⟩, fun hu => ⟨?_, hu.2⟩⟩
    rintro heq
    cases heq
    exact hstat hu.2.1
  · by_cases hut : u = t
    · rw [hut]
      exact hprio
    · exact h.prio u fun heq => hut (Option.some.inj heq).symm
  · by_cases hut : u = t
    · rw [hut]
      exact hmasks
    · exact h.masks u fun heq => hut (Option.some.inj heq).symm

theorem Consistent.listRemove (h : Consistent prioMax s (some t)) :
    Consistent prioMax (rtListRemove s t) (some t) := by
  have htable : ∀ p, (rtListRemove s t).priorityTable p = s.priorityTable p := fun p =>
    List.erase_of_not_mem fun hmem => ((h.listed p t).mp hmem).1 rfl
  refine ⟨fun p => ?_, h.grouped, fun p => ?_, fun p u => ?_, h.prio, h.prioInit, h.masks⟩
  · rw [htable]
    exact h.marked p
  · rw [htable]
    exact h.nodup p
  · rw [htable]
    exact h.listed p u

variable (hmax : prioMax ≤ 256)

include hmax

theorem Consistent.remove (h : Consistent prioMax s none) :
    Consistent prioMax (rtScheduleRemoveThread prioMax s t) (some t) := by
  have hmem : ∀ p u, u ∈ (s.priorityTable p).erase t ↔
      some t ≠ some u ∧ (s.thread u).stat = .ready ∧ (s.thread u).currentPriority = p := by
    intro p u
    rw [(h.nodup p).mem_erase_iff, h.listed]
    simp [eq_comm]
  have hother : ∀ p, p ≠ (s.thread t).currentPriority → (s.priorityTable p).erase t = s.priorityTable p :=
    fun p hp => List.erase_of_not_mem fun hmem => hp ((h.listed p t).mp hmem).2.2.symm
  have hp := h.prio t nofun
  simp only [rtScheduleRemoveThread]
  split
  · rename_i hempty
    have hempty : (s.priorityTable (s.thread t).currentPriority).erase t = [] := hempty
    rcases h.masks t nofun with hmasks | ⟨hstat, hmasks⟩
    · refine ⟨fun p => ?_, ?_, fun p => (h.nodup p).erase t, hmem, fun u _ => h.prio u nofun,
        h.prioInit, fun u _ => h.masks u nofun⟩
      · show (s.bits.clear prioMax (s.thread t).masks).Marked prioMax p ↔ (s.priorityTable p).erase t ≠ []
        rw [hmasks, marked_clear hmax hp, h.marked]
        by_cases hpt : p = (s.thread t).currentPriority
        · subst hpt
          simp [hempty]
        · rw [hother p hpt]
          simp [hpt]
      · show (s.bits.clear prioMax (s.thread t).masks).Grouped prioMax
        rw [hmasks]
        exact grouped_clear hmax hp h.grouped
    · -- the masks of a thread that was never started clear nothing
      have hno : ∀ p, t ∉ s.priorityTable p := by
        intro p hin
        have hready := ((h.listed p t).mp hin).2.1
        rcases hstat with hstat | hstat
        · rw [hstat] at hready
          cases hready
        · rw [hstat] at hready
          cases hready
      have htable : ∀ p, (s.priorityTable p).erase t = s.priorityTable p :=
        fun p => List.erase_of_not_mem (hno p)
      have hclear : s.bits.clear prioMax (s.thread t).masks = s.bits := by
        rw [hmasks, clear_zero]
      refine ⟨fun p => ?_, ?_, fun p => (h.nodup p).erase t, hmem, fun u _ => h.prio u nofun,
        h.prioInit, fun u _ => h.masks u nofun⟩
      · show (s.bits.clear prioMax (s.thread t).masks).Marked prioMax p ↔ (s.priorityTable p).erase t ≠ []
        rw [hclear, htable]
        exact h.marked p
      · show (s.bits.clear prioMax (s.thread t).masks).Grouped prioMax
        rw [hclear]
        exact h.grouped
  · rename_i hempty
    have hempty : (s.priorityTable (s.thread t).currentPriority).erase t ≠ [] := hempty
    refine ⟨fun p => ?_, h.grouped, fun p => (h.nodup p).erase t, hmem, fun u _ => h.prio u nofun,
      h.prioInit, fun u _ => h.masks u nofun⟩
    show s.bits.Marked prioMax p ↔ (s.priorityTable p).erase t ≠ []
    rw [h.marked]
    by_cases hpt : p = (s.thread t).currentPriority
    · subst hpt
      refine iff_of_true (fun hnil => hempty ?_) hempty
      rw [hnil]
      rfl
    · rw [hother p hpt]

theorem Consistent.insert (h : Consistent prioMax s (some t))
    (hprio : (s.thread t).currentPriority < prioMax)
    (hmasks : (s.thread t).masks = masksOf prioMax (s.thread t).currentPriority) :
    Consistent prioMax (rtScheduleInsertThread prioMax s t) none := by
  simp only [rtScheduleInsertThread]
  split
  · refine (h.setThread rfl).settle ?_ ?_ (Or.inl ?_)
    · simp
    · simpa using hprio
    · simpa using hmasks
  · have hout : ∀ {u}, u ≠ t → (some t : Option T) ≠ some u :=
      fun hu heq => hu (Option.some.inj heq).symm
    have hno : t ∉ s.priorityTable (s.thread t).currentPriority :=
      fun hmem => ((h.listed _ t).mp hmem).1 rfl
    refine ⟨fun p => ?_, ?_, fun p => ?_, fun p u => ?_, fun u _ => ?_, fun u => ?_, fun u _ => ?_⟩
    · show (s.bits.set prioMax (s.thread t).masks).Marked prioMax p ↔ _
      rw [hmasks, marked_set hmax hprio, h.marked]
      by_cases hpt : p = (s.thread t).currentPriority
      · subst hpt
        simp
      · simp [hpt]
    · show (s.bits.set prioMax (s.thread t).masks).Grouped prioMax
      rw [hmasks]
      exact grouped_set hmax hprio h.grouped
    · by_cases hpt : p = (s.thread t).currentPriority
      · subst hpt
        simp only [Function.update_self]
        exact List.nodup_append.mpr ⟨h.nodup _, List.nodup_singleton t, fun a ha b hb => by
          rw [List.mem_singleton] at hb
          rintro rfl
          exact hno (hb ▸ ha)⟩
      · simp only [Function.update_of_ne hpt]
        exact h.nodup p
    · by_cases hut : u = t
      · subst hut
        by_cases hpu : p = (s.thread u).currentPriority
        · subst hpu
          simp [State.setStat]
        · simp only [Function.update_of_ne hpu]
          refine iff_of_false (fun hmem => ((h.listed p u).mp hmem).1 rfl) fun hu => hpu ?_
          simpa [State.setStat] using hu.2.2.symm
      · have hthread : ((s.setStat t .ready).thread u) = s.thread u := setThread_of_ne hut _
        show u ∈ Function.update s.priorityTable _ _ p ↔ _ ∧ ((s.setStat t .ready).thread u).stat = _ ∧
          ((s.setStat t .ready).thread u).currentPriority = p
        rw [hthread]
        by_cases hpt : p = (s.thread t).currentPriority
        · subst hpt
          rw [Function.update_self, List.mem_append, List.mem_singleton, or_iff_left hut, h.listed]
          exact and_congr_left fun _ => iff_of_true (hout hut) nofun
        · rw [Function.update_of_ne hpt, h.listed]
          exact and_congr_left fun _ => iff_of_true (hout hut) nofun
    · by_cases hut : u = t
      · subst hut
        simpa [State.setStat] using hprio
      · simpa [State.setStat, hut] using h.prio u (hout hut)
    · by_cases hut : u = t
      · subst hut
        simpa [State.setStat] using h.prioInit u
      · simpa [State.setStat, hut] using h.prioInit u
    · by_cases hut : u = t
      · subst hut
        left
        simpa [State.setStat] using hmasks
      · simpa [State.setStat, hut] using h.masks u (hout hut)

theorem Consistent.retire (h : Consistent prioMax s none) {f : Thread → Thread}
    (hstat : (f (s.thread t)).stat ≠ .ready)
    (hinit : (f (s.thread t)).initPriority = (s.thread t).initPriority)
    (hprio : (f (s.thread t)).currentPriority = (s.thread t).currentPriority)
    (hmasks : (f (s.thread t)).MasksOk prioMax) :
    Consistent prioMax ((rtScheduleRemoveThread prioMax s t).setThread t f) none := by
  have hthread : ((rtScheduleRemoveThread prioMax s t).setThread t f).thread t = f (s.thread t) := by
    rw [setThread_self, remove_thread]
  refine ((h.remove hmax).setThread (by rw [remove_thread]; exact hinit)).settle ?_ ?_ ?_
  · rw [hthread]
    exact hstat
  · rw [hthread, hprio]
    exact h.prio t nofun
  · rw [hthread]
    exact hmasks

theorem Inv.retire (h : Inv prioMax s) {f : Thread → Thread} (hstat : (f (s.thread t)).stat ≠ .ready)
    (hinit : (f (s.thread t)).initPriority = (s.thread t).initPriority)
    (hprio : (f (s.thread t)).currentPriority = (s.thread t).currentPriority)
    (hmasks : (f (s.thread t)).MasksOk prioMax) :
    Inv prioMax ((rtScheduleRemoveThread prioMax s t).setThread t f) := by
  refine ⟨h.lists.retire hmax hstat hinit hprio hmasks, fun u hu => ?_⟩
  by_cases hut : u = t
  · subst hut
    rw [setThread_self, remove_thread]
    exact hstat
  · rw [setThread_of_ne hut, remove_thread]
    exact h.current u ((remove_currentThread prioMax s t).symm.trans hu)

theorem Inv.admit (h : Consistent prioMax s (some t))
    (hcurrent : ∀ u, u ≠ t → s.currentThread = some u → (s.thread u).stat ≠ .ready)
    (hprio : (s.thread t).currentPriority < prioMax)
    (hmasks : (s.thread t).masks = masksOf prioMax (s.thread t).currentPriority) :
    Inv prioMax (rtScheduleInsertThread prioMax s t) := by
  refine ⟨h.insert hmax hprio hmasks, fun u hu => ?_⟩
  rw [insert_currentThread] at hu
  by_cases hut : u = t
  · subst hut
    simp [rtScheduleInsertThread, hu, State.setStat]
  · rw [insert_thread_of_ne prioMax hut]
    exact hcurrent u hut hu

theorem Inv.wake (h : Inv prioMax s) (hstat : (s.thread t).stat = .suspend) {f : Thread → Thread}
    (hf : ∀ th, (f th).currentPriority = th.currentPriority ∧ (f th).masks = th.masks ∧
      (f th).initPriority = th.initPriority) :
    Inv prioMax (rtScheduleInsertThread prioMax ((rtListRemove s t).setThread t f) t) := by
  obtain ⟨hcp, hm, hi⟩ := hf (s.thread t)
  have hout : Consistent prioMax s (some t) := h.lists.out (by rw [hstat]; decide)
  have hthread : ((rtListRemove s t).setThread t f).thread t = f (s.thread t) := setThread_self f
  refine Inv.admit hmax (hout.listRemove.setThread hi) (fun u hut hu => ?_) ?_ ?_
  · rw [setThread_of_ne hut]
    exact h.current u hu
  · rw [hthread, hcp]
    exact h.lists.prio t nofun
  · rw [hthread, hm, hcp]
    exact (h.lists.masks t nofun).masks_eq (by rw [hstat]; decide) (by rw [hstat]; decide)

/-! ### The functions -/

omit hmax in
omit [DecidableEq T] in
theorem getHighestPriorityThread_spec (h : Consistent prioMax s none) {toThread : T} {highest : ℕ}
    (hget : getHighestPriorityThread prioMax s = some (toThread, highest)) :
    (s.thread toThread).stat = .ready ∧ (s.thread toThread).currentPriority = highest := by
  simp only [getHighestPriorityThread, Option.map_eq_some_iff, Prod.mk.injEq] at hget
  obtain ⟨t, hhead, rfl, rfl⟩ := hget
  exact ((h.listed _ t).mp (List.mem_of_head? hhead)).2

theorem Consistent.dispatch (h : Consistent prioMax s none) (hready : (s.thread t).stat = .ready)
    (hcur : s.currentThread = some t) :
    Inv prioMax ((rtScheduleRemoveThread prioMax s t).setStat t .running) := by
  have hmasks := (h.masks t nofun).masks_eq (by rw [hready]; decide) (by rw [hready]; decide)
  refine ⟨h.retire hmax (by simp) rfl rfl (Or.inl hmasks), fun u hu => ?_⟩
  have hut : u = t :=
    Option.some.inj (hu.symm.trans ((remove_currentThread prioMax s t).trans hcur))
  subst hut
  simp [State.setStat]

theorem Consistent.switchTo (h : Consistent prioMax s none) {current toThread : T} (hne : toThread ≠ current)
    (hto : (s.thread toThread).stat = .ready) {needInsert : Bool}
    (hneed : needInsert = true → (s.thread current).stat = .running) :
    Inv prioMax (switchTo prioMax s current toThread needInsert) := by
  have hs₁ : Consistent prioMax { s with currentThread := some toThread } none := h.of_eq rfl rfl rfl
  cases needInsert with
  | false => exact hs₁.dispatch hmax hto rfl
  | true =>
    -- the former current thread goes to its ready list first
    have hrun := hneed rfl
    have hout : Consistent prioMax { s with currentThread := some toThread } (some current) :=
      hs₁.out (by show (s.thread current).stat ≠ .ready; rw [hrun]; decide)
    have hmasks := (h.masks current nofun).masks_eq (by rw [hrun]; decide) (by rw [hrun]; decide)
    refine (hout.insert hmax (h.prio current nofun) hmasks).dispatch hmax ?_ ?_
    · simp only [if_true, insert_thread_of_ne prioMax hne]
      exact hto
    · simp only [if_true, insert_currentThread]

theorem switchTo_inv (h : Inv prioMax s) {current toThread : T} (hcur : s.currentThread = some current)
    (hto : (s.thread toThread).stat = .ready) {needInsert : Bool}
    (hneed : needInsert = true → (s.thread current).stat = .running) :
    Inv prioMax (switchTo prioMax s current toThread needInsert) := by
  refine h.lists.switchTo hmax ?_ hto hneed
  rintro rfl
  exact h.current toThread hcur hto

theorem rtSchedule_inv (h : Inv prioMax s) {s' : State T} (hs : rtSchedule prioMax s = some s') :
    Inv prioMax s' := by
  simp only [rtSchedule] at hs
  split at hs
  · simp only [Option.bind_eq_some_iff, Option.map_eq_some_iff] at hs
    obtain ⟨⟨toThread, highest⟩, hget, current, hcur, rfl⟩ := hs
    obtain ⟨hready, -⟩ := getHighestPriorityThread_spec h.lists hget
    have hne : toThread ≠ current := by
      rintro rfl
      exact h.current toThread hcur hready
    simp only [chooseThread]
    split
    · rename_i hrun
      split
      · -- the current thread goes on
        have hmasks := (h.lists.masks current nofun).masks_eq (by rw [hrun]; decide) (by rw [hrun]; decide)
        simp only [ne_eq, not_true_eq_false, if_false]
        exact h.retire hmax (by simp) rfl rfl (Or.inl hmasks)
      · exact switchTo_inv hmax h hcur hready fun _ => hrun
    · exact switchTo_inv hmax h hcur hready nofun
  · cases hs
    exact h

theorem rtSystemSchedulerStart_inv (h : Inv prioMax s) {s' : State T}
    (hs : rtSystemSchedulerStart prioMax s = some s') : Inv prioMax s' := by
  simp only [rtSystemSchedulerStart, Option.ite_none_left_eq_some, Option.map_eq_some_iff] at hs
  obtain ⟨-, ⟨toThread, highest⟩, hget, rfl⟩ := hs
  obtain ⟨hready, -⟩ := getHighestPriorityThread_spec h.lists hget
  have hs₁ : Consistent prioMax { s with currentThread := some toThread } none :=
    h.lists.of_eq rfl rfl rfl
  exact hs₁.dispatch hmax hready rfl

theorem rtThreadResume_inv (h : Inv prioMax s) : Inv prioMax (rtThreadResume prioMax s t).1 := by
  simp only [rtThreadResume]
  split
  · exact h
  · rename_i hstat
    exact h.wake hmax (not_not.mp hstat) (f := fun th => { th with threadTimer := false })
      fun _ => ⟨rfl, rfl, rfl⟩

omit hmax in
theorem Inv.change (h : Inv prioMax s) (hstat : (s.thread t).stat ≠ .ready) {f : Thread → Thread}
    (hinit : (f (s.thread t)).initPriority = (s.thread t).initPriority)
    (hstat' : (f (s.thread t)).stat ≠ .ready) (hprio : (f (s.thread t)).currentPriority < prioMax)
    (hmasks : (f (s.thread t)).MasksOk prioMax) : Inv prioMax (s.setThread t f) := by
  refine ⟨((h.lists.out hstat).setThread hinit).settle ?_ ?_ ?_, fun u hu => ?_⟩
  · rw [setThread_self]
    exact hstat'
  · rw [setThread_self]
    exact hprio
  · rw [setThread_self]
    exact hmasks
  · by_cases hut : u = t
    · subst hut
      rw [setThread_self]
      exact hstat'
    · rw [setThread_of_ne hut]
      exact h.current u hu

theorem startup_inv (h : Inv prioMax s) {v : T} (hstat : (s.thread v).stat = .init) :
    Inv prioMax (rtThreadResume prioMax (s.setThread v fun th => { th with
      currentPriority := th.initPriority, masks := masksOf prioMax th.initPriority, stat := .suspend }) v).1 := by
  refine rtThreadResume_inv hmax (h.change ?_ rfl ?_ (h.lists.prioInit v) (Or.inl rfl))
  · rw [hstat]
    decide
  · simp

theorem rtThreadStartup_inv (h : Inv prioMax s) {s' : State T}
    (hs : rtThreadStartup prioMax s t = some s') : Inv prioMax s' := by
  simp only [rtThreadStartup, ne_eq, ite_not, Option.ite_none_right_eq_some] at hs
  obtain ⟨hstat, hs⟩ := hs
  split at hs
  · exact rtSchedule_inv hmax (startup_inv hmax h hstat) hs
  · cases hs
    exact startup_inv hmax h hstat

theorem rtThreadSuspend_inv (h : Inv prioMax s) {r : State T × RtErr}
    (hs : rtThreadSuspend prioMax s t = some r) : Inv prioMax r.1 := by
  simp only [rtThreadSuspend] at hs
  split at hs
  · cases hs
    exact h
  · rename_i hstat
    split at hs
    · cases hs
    · cases hs
      have hmasks := (h.lists.masks t nofun).masks_eq (fun hi => hstat (by rw [hi]; decide))
        (fun hc => hstat (by rw [hc]; decide))
      exact h.retire hmax (f := fun th => { th with stat := .suspend, threadTimer := false })
        (by simp) rfl rfl (Or.inl hmasks)

omit hmax in
theorem Inv.keep (h : Inv prioMax s) {f : Thread → Thread}
    (hf : ∀ th, (f th).stat = th.stat ∧ (f th).currentPriority = th.currentPriority ∧
      (f th).initPriority = th.initPriority ∧ (f th).masks = th.masks) : Inv prioMax (s.setThread t f) := by
  have hkeep : ∀ u, ((s.setThread t f).thread u).stat = (s.thread u).stat ∧
      ((s.setThread t f).thread u).currentPriority = (s.thread u).currentPriority ∧
      ((s.setThread t f).thread u).initPriority = (s.thread u).initPriority ∧
      ((s.setThread t f).thread u).masks = (s.thread u).masks := by
    intro u
    by_cases hut : u = t
    · rw [hut, setThread_self]
      exact hf _
    · rw [setThread_of_ne hut]
      exact ⟨rfl, rfl, rfl, rfl⟩
  have hstat := fun u => (hkeep u).1
  have hprio := fun u => (hkeep u).2.1
  have hinit := fun u => (hkeep u).2.2.1
  have hmasks := fun u => (hkeep u).2.2.2
  refine ⟨⟨h.lists.marked, h.lists.grouped, h.lists.nodup, fun p u => ?_, fun u hu => ?_, fun u => ?_,
    fun u hu => ?_⟩, fun u hu => ?_⟩
  · rw [hstat, hprio]
    exact h.lists.listed p u
  · rw [hprio]
    exact h.lists.prio u hu
  · rw [hinit]
    exact h.lists.prioInit u
  · rw [Thread.MasksOk, hmasks, hprio, hstat]
    exact h.lists.masks u hu
  · rw [hstat]
    exact h.current u hu

omit hmax in
theorem rtTimerStart_inv (h : Inv prioMax s) : Inv prioMax (rtTimerStart s t) :=
  h.keep fun _ => ⟨rfl, rfl, rfl, rfl⟩

theorem rtThreadSleep_inv (h : Inv prioMax s) {s' : State T} (hs : rtThreadSleep prioMax s = some s') :
    Inv prioMax s' := by
  simp only [rtThreadSleep, Option.bind_eq_some_iff] at hs
  obtain ⟨t, -, r, hr, hs⟩ := hs
  exact rtSchedule_inv hmax (rtTimerStart_inv (rtThreadSuspend_inv hmax h hr)) hs

omit hmax in
theorem rtThreadSleepReturn_inv (h : Inv prioMax s) {s' : State T}
    (hs : rtThreadSleepReturn s = some s') : Inv prioMax s' := by
  simp only [rtThreadSleepReturn, Option.map_eq_some_iff] at hs
  obtain ⟨t, -, rfl⟩ := hs
  split
  · exact h.keep fun _ => ⟨rfl, rfl, rfl, rfl⟩
  · exact h

theorem rtThreadControl_inv (h : Inv prioMax s) {priority : ℕ} (hp : priority < prioMax) :
    Inv prioMax (rtThreadControl prioMax s t priority) := by
  simp only [rtThreadControl]
  split
  · refine Inv.admit hmax ((h.lists.remove hmax).setThread (by simp)) (fun u hut hu => ?_) ?_ ?_
    · rw [setThread_of_ne hut, remove_thread]
      exact h.current u ((remove_currentThread prioMax s t).symm.trans hu)
    · simpa using hp
    · simp
  · rename_i hstat
    exact h.change hstat rfl hstat hp (Or.inl rfl)

theorem closeThread_inv (h : Inv prioMax s) : Inv prioMax (closeThread prioMax s t) := by
  have hmasks := (h.lists.masks t nofun).close
  simp only [closeThread]
  split
  · exact h.retire hmax (by simp) rfl rfl hmasks
  · rename_i hstat
    exact h.change (by rw [not_not.mp hstat]; decide) rfl (by simp) (h.lists.prio t nofun) hmasks

omit hmax in
omit [DecidableEq T] in
theorem insertDefunct_inv (h : Inv prioMax s) : Inv prioMax (insertDefunct s t) :=
  ⟨h.lists.of_eq rfl rfl rfl, h.current⟩

theorem rtThreadDetach_inv (h : Inv prioMax s) {s' : State T}
    (hs : rtThreadDetach prioMax s t = some s') : Inv prioMax s' := by
  simp only [rtThreadDetach, Option.ite_none_right_eq_some] at hs
  obtain ⟨-, hs⟩ := hs
  split at hs
  · cases hs
    exact insertDefunct_inv (closeThread_inv hmax h)
  · cases hs
    exact closeThread_inv hmax h

theorem exit_inv (h : Inv prioMax s) (v : T) :
    Inv prioMax ((rtScheduleRemoveThread prioMax s v).setThread v
      fun th => { th with stat := .close, threadTimer := false }) := by
  refine h.retire hmax ?_ rfl rfl (h.lists.masks v (Option.some_ne_none v).symm).close
  simp

theorem rtThreadExit_inv (h : Inv prioMax s) {s' : State T} (hs : rtThreadExit prioMax s = some s') :
    Inv prioMax s' := by
  simp only [rtThreadExit, Option.bind_eq_some_iff] at hs
  obtain ⟨t, -, hs⟩ := hs
  refine rtSchedule_inv hmax ?_ hs
  split
  · exact exit_inv hmax h t
  · exact insertDefunct_inv (exit_inv hmax h t)

theorem rtThreadTimeout_inv (h : Inv prioMax s) {s' : State T}
    (hs : rtThreadTimeout prioMax s t = some s') : Inv prioMax s' := by
  simp only [rtThreadTimeout, Option.ite_none_right_eq_some] at hs
  obtain ⟨hstat, hs⟩ := hs
  exact rtSchedule_inv hmax (h.wake hmax hstat
    (f := fun th => { th with error := .etimeout, threadTimer := false }) fun _ => ⟨rfl, rfl, rfl⟩) hs

omit hmax in
omit [DecidableEq T] in
theorem lockNest_inv (h : Inv prioMax s) (nest : ℤ) : Inv prioMax { s with lockNest := nest } :=
  ⟨h.lists.of_eq rfl rfl rfl, h.current⟩

theorem step_inv {a : Act T} (h : Inv prioMax s) {s' : State T} (hs : step prioMax s a = some s') :
    Inv prioMax s' := by
  cases a with
  | start =>
    simp only [step, Option.ite_none_right_eq_some] at hs
    exact rtSystemSchedulerStart_inv hmax h hs.2
  | startup t => exact rtThreadStartup_inv hmax h hs
  | suspend t =>
    simp only [step, Option.map_eq_some_iff] at hs
    obtain ⟨r, hr, rfl⟩ := hs
    exact rtThreadSuspend_inv hmax h hr
  | resume t =>
    cases hs
    exact rtThreadResume_inv hmax h
  | yield => exact rtSchedule_inv hmax h hs
  | sleep => exact rtThreadSleep_inv hmax h hs
  | sleepReturn => exact rtThreadSleepReturn_inv h hs
  | timerStart t =>
    cases hs
    exact rtTimerStart_inv h
  | control t priority =>
    simp only [step, Option.ite_none_right_eq_some, Option.some.injEq] at hs
    obtain ⟨hp, rfl⟩ := hs
    exact rtThreadControl_inv hmax h hp
  | delete t =>
    simp only [step, rtThreadDelete, Option.ite_none_left_eq_some, Option.some.injEq] at hs
    obtain ⟨-, rfl⟩ := hs
    exact insertDefunct_inv (closeThread_inv hmax h)
  | detach t => exact rtThreadDetach_inv hmax h hs
  | exit => exact rtThreadExit_inv hmax h hs
  | timeout t =>
    simp only [step, Option.ite_none_right_eq_some] at hs
    exact rtThreadTimeout_inv hmax h hs.2
  | schedule => exact rtSchedule_inv hmax h hs
  | enterCritical =>
    cases hs
    exact lockNest_inv h _
  | exitCritical =>
    simp only [step, rtExitCritical] at hs
    split at hs
    · split at hs
      · exact rtSchedule_inv hmax (lockNest_inv h 0) hs
      · cases hs
        exact lockNest_inv h 0
    · cases hs
      exact lockNest_inv h _

/-! ### Every run -/

omit hmax in
omit [DecidableEq T] in
theorem Consistent.isLeast_highest (h : Consistent prioMax s none)
    (hready : ∃ p, s.priorityTable p ≠ []) :
    IsLeast { p | s.priorityTable p ≠ [] } (s.bits.highest prioMax) := by
  have hgroup : s.bits.group ≠ 0 := by
    intro hzero
    obtain ⟨p, hp⟩ := hready
    exact (group_eq_zero_iff h.grouped).mp hzero p ((h.marked p).mpr hp)
  obtain ⟨hmarked, hlow⟩ := highest_spec h.grouped hgroup
  refine ⟨(h.marked _).mp hmarked, fun q hq => ?_⟩
  by_contra hlt
  exact hlow q (not_le.mp hlt) ((h.marked q).mpr hq)

omit hmax in
theorem Consistent.count_eq (h : Consistent prioMax s none) (hready : (s.thread t).stat = .ready) (p : ℕ) :
    (s.priorityTable p).count t = if p = (s.thread t).currentPriority then 1 else 0 := by
  split
  · rename_i hp
    exact List.count_eq_one_of_mem (h.nodup p) ((h.listed p t).mpr ⟨nofun, hready, hp.symm⟩)
  · rename_i hp
    exact List.count_eq_zero_of_not_mem fun hmem => hp ((h.listed p t).mp hmem).2.2.symm

theorem run_inv {thread : T → Thread} {acts : List (Act T)}
    (hthread : ∀ t, ∃ p isSystem cleanup, p < prioMax ∧ thread t = rtThreadInit p isSystem cleanup)
    (hrun : exec (step prioMax) (rtSystemSchedulerInit thread) acts = some s) : Inv prioMax s :=
  exec_inv (Inv prioMax) (fun _ _ _ h hs => step_inv hmax h hs) (init_inv hthread) hrun

/-- In every run the bitmap has the bits of the lists that are not empty, the lists hold
the ready threads, each once and at its priority, and `__rt_ffs` finds the first list that
is not empty. -/
theorem ready_lists_invariant {thread : T → Thread} {acts : List (Act T)}
    (hthread : ∀ t, ∃ p isSystem cleanup, p < prioMax ∧ thread t = rtThreadInit p isSystem cleanup)
    (hrun : exec (step prioMax) (rtSystemSchedulerInit thread) acts = some s) :
    (∀ p, s.bits.Marked prioMax p ↔ s.priorityTable p ≠ []) ∧ s.bits.Grouped prioMax ∧
    (∀ t, (s.thread t).stat = .ready →
      (∀ p, (s.priorityTable p).count t = if p = (s.thread t).currentPriority then 1 else 0) ∧
      (s.thread t).masks = masksOf prioMax (s.thread t).currentPriority) ∧
    (∀ t p, t ∈ s.priorityTable p → (s.thread t).stat = .ready) ∧
    ((∃ p, s.priorityTable p ≠ []) →
      IsLeast { p | s.priorityTable p ≠ [] } (s.bits.highest prioMax)) := by
  have h := run_inv hmax hthread hrun
  refine ⟨h.lists.marked, h.lists.grouped, fun t hready => ⟨h.lists.count_eq hready, ?_⟩,
    fun t p hmem => ((h.lists.listed p t).mp hmem).2.1, h.lists.isLeast_highest⟩
  exact (h.lists.masks t nofun).masks_eq (by rw [hready]; decide) (by rw [hready]; decide)

/-- A thread sleeps and gets a new priority, as does a ready one; it is woken by its timer. -/
def sampleRun : List (Act ℕ) :=
  [.startup 0, .startup 1, .start, .startup 2, .sleep, .control 1 27, .control 2 30, .timeout 1,
   .suspend 1, .yield, .resume 1, .exit]

def sampleThreads (t : ℕ) : Thread := rtThreadInit (if t < 2 then 5 else 6) false false

omit hmax in
theorem ready_lists_invariant_sample :
    (∃ s, exec (step 32) (rtSystemSchedulerInit sampleThreads) sampleRun = some s ∧
      s.priorityTable 30 = [2] ∧ IsLeast { p | s.priorityTable p ≠ [] } (s.bits.highest 32)) ∧
    ∃ s, exec (step 256) (rtSystemSchedulerInit sampleThreads) sampleRun = some s ∧
      s.priorityTable 30 = [2] ∧ IsLeast { p | s.priorityTable p ≠ [] } (s.bits.highest 256) := by
  have hthread (prioMax : ℕ) (hmax : 32 ≤ prioMax) (t : ℕ) : ∃ p isSystem cleanup,
      p < prioMax ∧ sampleThreads t = rtThreadInit p isSystem cleanup :=
    ⟨if t < 2 then 5 else 6, false, false, by split <;> omega, rfl⟩
  obtain ⟨s, hs, hlist⟩ := Option.map_eq_some_iff.mp (show (exec (step 32) (rtSystemSchedulerInit sampleThreads)
    sampleRun).map (fun s => s.priorityTable 30) = some [2] by decide)
  obtain ⟨s', hs', hlist'⟩ := Option.map_eq_some_iff.mp (show (exec (step 256) (rtSystemSchedulerInit sampleThreads)
    sampleRun).map (fun s => s.priorityTable 30) = some [2] by decide +kernel)
  refine ⟨⟨s, hs, hlist, ?_⟩, ⟨s', hs', hlist', ?_⟩⟩
  · exact (@ready_lists_invariant ℕ _ 32 _ (by decide) sampleThreads sampleRun
      (hthread 32 (by decide)) hs).2.2.2.2 ⟨30, by rw [hlist]; decide⟩
  · exact (@ready_lists_invariant ℕ _ 256 _ (by decide) sampleThreads sampleRun
      (hthread 256 (by decide)) hs').2.2.2.2 ⟨30, by rw [hlist']; decide⟩

end RtThread.Sched.Scheduler
