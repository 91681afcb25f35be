import RtThread.Sched.WaitOrder

/-!
# Runs that keep the order of the suspend lists

Which steps keep each suspend list in the order of the priorities: all but the changes of a waiting thread's priority
that move it past another thread of its list.
-/

namespace RtThread.Sched.WaitLists

open RtThread.Ipc.Base (IpcFlag RtErr)
open RtThread.Lib.Sorted RtThread.Lib.Transition RtThread.Lib.Word RtThread.Sched.Scheduler

variable {T M O : Type*} [DecidableEq T] [DecidableEq M] [DecidableEq O] {prioMax : ℕ} {k k' : Kernel T M O} {t : T}
  {s : State T} {x : M → RtMutex T} {o : M ⊕ O} {time : ℤ}

/-- A thread waits for no mutex that it owns, and no thread waits for a free mutex. -/
structure Held (k : Kernel T M O) : Prop where
  free : ∀ m, 0 < (k.mutex m).value → (k.object (.inl m)).suspendThread = []
  owner : ∀ m t, (k.mutex m).owner = some t → k.place t ≠ some (.inl m)

/-- A change of the priority of a thread that waits, by `rt_thread_control`, by the raise of an owner in
`rt_mutex_take` or its end in `rt_mutex_release`, keeps the place of the thread. -/
def KeepsOrder (k : Kernel T M O) : Act T M O → Prop
  | .call a => ∀ c ∈ controlled a, KeepsPlace k c.1 c.2
  | .mutexTake m time => ∀ t ∈ k.sched.currentThread, ∀ u ∈ (k.mutex m).owner, u ≠ t → (k.mutex m).value = 0 →
      time ≠ 0 → k.prio t < k.prio u → KeepsPlace k u (k.prio t)
  | .mutexRelease m => ∀ t ∈ k.sched.currentThread, (k.mutex m).owner = some t → dec 8 (k.mutex m).hold = 0 →
      KeepsPlace k t (k.mutex m).originalPriority
  | _ => True

instance (k : Kernel T M O) : (a : Act T M O) → Decidable (KeepsOrder k a)
  | .call a => inferInstanceAs (Decidable (∀ c ∈ controlled a, _))
  | .mutexTake _ _ => inferInstanceAs (Decidable (∀ t ∈ k.sched.currentThread, ∀ u ∈ _, _))
  | .mutexRelease _ => inferInstanceAs (Decidable (∀ t ∈ k.sched.currentThread, _))
  | .ipcSuspend _ _ => isTrue trivial
  | .ipcResume _ => isTrue trivial
  | .ipcResumeAll _ => isTrue trivial

omit [DecidableEq T] [DecidableEq O] in
theorem Held.setMutex (h : Held k) {m : M} {y : RtMutex T} (hfree : 0 < y.value → (k.object (.inl m)).suspendThread = [])
    (howner : ∀ t, y.owner = some t → k.place t ≠ some (.inl m)) :
    Held { k with sched := s, mutex := Function.update k.mutex m y } := by
  constructor
  · intro n hn
    by_cases hnm : n = m
    · subst hnm
      simp only [Function.update_self] at hn
      exact hfree hn
    · simp only [Function.update_of_ne hnm] at hn
      exact h.free n hn
  · intro n t hn
    by_cases hnm : n = m
    · subst hnm
      simp only [Function.update_self] at hn
      exact howner t hn
    · simp only [Function.update_of_ne hnm] at hn
      exact h.owner n t hn

omit [DecidableEq M] [DecidableEq O] in
theorem Held.unlist (h : Held k) : Held { unlist k t with sched := s } := by
  refine ⟨fun m hm => ?_, fun m u hu => ?_⟩
  · show ((k.object (.inl m)).suspendThread).erase t = []
    rw [h.free m hm]
    rfl
  · show Function.update k.place t none u ≠ _
    by_cases hut : u = t
    · rw [hut, Function.update_self]
      exact (Option.some_ne_none _).symm
    · rw [Function.update_of_ne hut]
      exact h.owner m u hu

theorem Joined.held (hj : Joined k k' o t) (h : Held k)
    (hm : ∀ m, o = .inl m → (k.mutex m).value = 0 ∧ (k.mutex m).owner ≠ some t) : Held k' := by
  constructor
  · intro m hvalue
    rw [hj.mutex] at hvalue
    have hne : Sum.inl m ≠ o := by
      rintro rfl
      rw [(hm m rfl).1] at hvalue
      exact lt_irrefl 0 hvalue
    rw [hj.object_eq hne]
    exact h.free m hvalue
  · intro m u hu hplace
    rw [hj.mutex] at hu
    rcases (hj.place_iff u (.inl m)).mp hplace with ⟨rfl, heq⟩ | ⟨-, hplace⟩
    · exact (hm m heq.symm).2 hu
    · exact h.owner m u hu hplace

theorem setError_keeps (s : State T) (t : T) (e : RtErr) (u : T) :
    ((setError s t e).thread u).stat = (s.thread u).stat ∧
      ((setError s t e).thread u).currentPriority = (s.thread u).currentPriority := by
  by_cases hut : u = t
  · rw [hut, setError, setThread_self]
    exact ⟨rfl, rfl⟩
  · rw [setError, setThread_of_ne hut]
    exact ⟨rfl, rfl⟩

/-- The invariants of the wait lists. -/
structure Kept (prioMax : ℕ) (k : Kernel T M O) : Prop where
  ready : Ready prioMax k
  waits : Waits k
  held : Held k

omit [DecidableEq M] [DecidableEq O] in
theorem Waits.setError (h : Waits k) (v : T) (e : RtErr) : Waits { k with sched := setError k.sched v e } :=
  h.setSched fun u o hu => (setError_keeps k.sched v e u).1.trans (h.suspended u o hu)

omit [DecidableEq M] [DecidableEq O] in
theorem ordered_setError (h : Waits k) (v : T) (e : RtErr) :
    Ordered { k with sched := WaitLists.setError k.sched v e } ↔ Ordered k :=
  ordered_setSched h fun u _ _ => (setError_keeps k.sched v e u).2

omit [DecidableEq T] [DecidableEq O] in
theorem Kept.setMutex (h : Kept prioMax k) (ho : Ordered k) {m : M} {y : RtMutex T}
    (hs : ∀ u o, k.place u = some o → StaysSuspended k.sched s u)
    (hfree : 0 < y.value → (k.object (.inl m)).suspendThread = [])
    (howner : ∀ t, y.owner = some t → k.place t ≠ some (.inl m)) :
    Waits { k with sched := s, mutex := Function.update k.mutex m y } ∧
      Held { k with sched := s, mutex := Function.update k.mutex m y } ∧
      Ordered { k with sched := s, mutex := Function.update k.mutex m y } := by
  refine ⟨h.waits.setSched fun u o hu => (hs u o hu).1, h.held.setMutex hfree howner, ?_⟩
  exact (ordered_setSched h.waits fun u o hu => (hs u o hu).2).mpr ho

omit [DecidableEq M] [DecidableEq O] in
theorem Waits.setError_stays (h : Waits k) (v : T) (e : RtErr) (u : T) (o : M ⊕ O) (hu : k.place u = some o) :
    StaysSuspended k.sched (WaitLists.setError k.sched v e) u :=
  ⟨(setError_keeps k.sched v e u).1.trans (h.suspended u o hu), (setError_keeps k.sched v e u).2⟩

omit [DecidableEq M] [DecidableEq O] in
theorem boost_keeps (h : Waits k) (ho : Ordered k) (t u : T) :
    ∃ s, s = (if k.prio t < k.prio u then rtThreadControl prioMax (setError k.sched t .eok) u (k.prio t)
      else setError k.sched t .eok) ∧ Waits { k with sched := s } ∧
      (Ordered { k with sched := s } ↔ (k.prio t < k.prio u → KeepsPlace k u (k.prio t))) := by
  have hstat : ∀ v o, k.place v = some o → ((setError k.sched t .eok).thread v).stat = .suspend :=
    fun v o hv => (setError_keeps k.sched t .eok v).1.trans (h.suspended v o hv)
  refine ⟨_, rfl, ?_⟩
  by_cases hlt : k.prio t < k.prio u
  · rw [if_pos hlt]
    refine ⟨h.setSched fun v o hv => (rtThreadControl_suspended _ (hstat v o hv)).1, ?_⟩
    rw [forall_prop_of_true hlt]
    refine ordered_control h ho fun v o hv => ?_
    rw [(rtThreadControl_suspended _ (hstat v o hv)).2, (setError_keeps k.sched t .eok v).2]
    rfl
  · rw [if_neg hlt]
    exact ⟨h.setError t .eok, iff_of_true ((ordered_setError h t .eok).mpr ho) fun hlt' => absurd hlt' hlt⟩

theorem rtMutexTake_kept (hmax : prioMax ≤ 256) {m : M} (h : Kept prioMax k) (ho : Ordered k)
    (hs : rtMutexTake prioMax k m time = some k') :
    Waits k' ∧ Held k' ∧ (Ordered k' ↔ KeepsOrder k (.mutexTake m time)) := by
  obtain ⟨thread, hcur, hs⟩ := Option.bind_eq_some_iff.mp hs
  have hself : ∀ {t}, t ∈ k.sched.currentThread → t = thread := fun ht => Option.some.inj (ht.symm.trans hcur)
  simp only at hs
  split at hs
  · rename_i howner
    cases hs
    obtain ⟨hwaits, hheld, hordered⟩ := h.setMutex (y := { k.mutex m with hold := inc 8 (k.mutex m).hold }) ho
      (h.waits.setError_stays thread .eok) (h.held.free m) (h.held.owner m)
    refine ⟨hwaits, hheld, iff_of_true hordered fun t ht u hu hut => ?_⟩
    exact absurd ((Option.some.inj (hu.symm.trans howner)).trans (hself ht).symm) hut
  · rename_i howner
    split at hs
    · rename_i hvalue
      cases hs
      have hempty := h.held.free m hvalue
      obtain ⟨hwaits, hheld, hordered⟩ := h.setMutex (y := ⟨dec 16 (k.mutex m).value, k.prio thread,
        inc 8 (k.mutex m).hold, some thread⟩) ho (h.waits.setError_stays thread .eok) (fun _ => hempty)
        fun t _ hplace => by
          rw [← h.waits.placed, hempty] at hplace
          cases hplace
      refine ⟨hwaits, hheld, iff_of_true hordered fun t _ u _ _ hzero => ?_⟩
      rw [hzero] at hvalue
      exact absurd hvalue (lt_irrefl 0)
    · rename_i hvalue
      split at hs
      · rename_i htime
        cases hs
        have hclear := h.waits.setError thread .eok
        refine ⟨hclear.setError thread .etimeout, ⟨h.held.free, h.held.owner⟩, iff_of_true ?_ ?_⟩
        · exact (ordered_setError hclear thread .etimeout).mpr ((ordered_setError h.waits thread .eok).mpr ho)
        · exact fun t _ u _ _ _ hne => absurd htime hne
      · rename_i htime
        obtain ⟨owner, hown, hs⟩ := Option.bind_eq_some_iff.mp hs
        obtain ⟨s, hboosted, hwaits, hboost⟩ := @boost_keeps T M O _ prioMax k h.waits ho thread owner
        have hinv := boost_inv hmax h.ready thread owner
        rw [← hboosted] at hs hinv
        have hjoined := suspend_joined hmax (h.ready.setSched hinv) hs
        have hne : owner ≠ thread := by
          rintro rfl
          exact howner hown
        refine ⟨hjoined.waits hwaits, hjoined.held ⟨h.held.free, h.held.owner⟩ fun n hn => ?_, ?_⟩
        · obtain rfl := Sum.inl.inj hn
          exact ⟨Nat.eq_zero_of_not_pos hvalue, howner⟩
        · rw [hjoined.ordered_iff hwaits, hboost]
          constructor
          · intro hkeeps t ht u hu _ _ _ hlt
            obtain rfl := hself ht
            obtain rfl := Option.some.inj (hu.symm.trans hown)
            exact hkeeps hlt
          · exact fun hkeeps hlt => hkeeps thread hcur owner hown hne (Nat.eq_zero_of_not_pos hvalue) htime hlt

omit [DecidableEq M] [DecidableEq O] in
theorem resume_kept (h : Waits k) (hh : Held k) (prioMax : ℕ) (t : T) :
    Waits (resume prioMax k t) ∧ Held (resume prioMax k t) ∧ (Ordered k → Ordered (resume prioMax k t)) := by
  have hother : ∀ u, u ≠ t → (rtThreadResume prioMax k.sched t).1.thread u = k.sched.thread u :=
    (rtThreadResume_spec prioMax k.sched t).2
  unfold resume
  split
  · refine ⟨h.unlist fun u o hut hu => ?_, hh.unlist, fun ho => ho.unlist h fun u o hut hu => ?_⟩
    · rw [hother u hut]
      exact h.suspended u o hu
    · rw [hother u hut]
      rfl
  · exact ⟨h, hh, id⟩

omit [DecidableEq M] [DecidableEq O] in
theorem restore_keeps (h : Waits k) (t : T) (priority : ℕ) :
    ∃ s, s = (if priority ≠ k.prio t then rtThreadControl prioMax k.sched t priority else k.sched) ∧
      ∀ u o, k.place u = some o → (s.thread u).stat = .suspend ∧
        (s.thread u).currentPriority = if u = t then priority else k.prio u := by
  refine ⟨_, rfl, fun u o hu => ?_⟩
  have hstat := h.suspended u o hu
  split
  · exact rtThreadControl_suspended priority hstat
  · rename_i heq
    refine ⟨hstat, ?_⟩
    by_cases hut : u = t
    · rw [if_pos hut, not_not.mp heq, hut]
      rfl
    · rw [if_neg hut]
      rfl

omit [DecidableEq O] in
theorem handed_kept (hmax : prioMax ≤ 256) {m : M} {waiter : T} {rest : List T} {y : RtMutex T} {priority : ℕ} {s' : State T}
    (h : Waits k) (hh : Held k) (ho : Ordered k) (hlist : (k.object (.inl m)).suspendThread = waiter :: rest)
    (howner : (k.mutex m).owner = some t) (hy : y.owner = some waiter) (hvalue : y.value = (k.mutex m).value)
    (hinv : Inv prioMax s)
    (hkeep : ∀ u o, k.place u = some o → (s.thread u).stat = .suspend ∧
      (s.thread u).currentPriority = if u = t then priority else k.prio u)
    (hs : rtSchedule prioMax (rtThreadResume prioMax s waiter).1 = some s') :
    Waits { unlist k waiter with sched := s', mutex := Function.update k.mutex m y } ∧
      Held { unlist k waiter with sched := s', mutex := Function.update k.mutex m y } ∧
      (Ordered { unlist k waiter with sched := s', mutex := Function.update k.mutex m y } ↔ KeepsPlace k t priority) := by
  have hmem : waiter ∈ (k.object (.inl m)).suspendThread := by
    rw [hlist]
    exact List.mem_cons_self
  have hwaiter := (h.placed _ waiter).mp hmem
  have hstays : ∀ u o, u ≠ waiter → k.place u = some o → StaysSuspended s s' u := by
    intro u o hu hplace
    have hsame := StaysSuspended.of_eq (hkeep u o hplace).1 ((rtThreadResume_spec prioMax s waiter).2 u hu)
    exact hsame.trans (rtSchedule_staysSuspended hmax (rtThreadResume_inv hmax hinv) hsame.1 hs)
  refine ⟨h.unlist fun u o hu hplace => (hstays u o hu hplace).1, hh.unlist.setMutex (fun hpos => ?_) fun u hu => ?_, ?_⟩
  · rw [hvalue] at hpos
    rw [hh.free m hpos] at hlist
    cases hlist
  · obtain rfl := Option.some.inj (hu.symm.trans hy)
    show Function.update k.place u none u ≠ _
    rw [Function.update_self]
    exact (Option.some_ne_none _).symm
  · rw [← ordered_control (x := Function.update k.mutex m y) h ho fun u o hu => (hkeep u o hu).2]
    constructor
    · intro ho' o hflag
      by_cases hom : o = .inl m
      · -- the owner is not in the list of its mutex
        subst hom
        have hrank : ∀ u ∈ (k.object (.inl m)).suspendThread,
            Kernel.rank { k with sched := s, mutex := Function.update k.mutex m y } u = k.rank u := by
          intro u hu
          have hplace := (h.placed _ u).mp hu
          have hprio := (hkeep u _ hplace).2
          rw [if_neg] at hprio
          · exact Kernel.rank_eq rfl hprio
          · rintro rfl
            exact hh.owner m u howner hplace
        exact (sortedBy_congr hrank).mpr (ho _ hflag)
      · have hnot : waiter ∉ (k.object o).suspendThread := by
          intro hin
          exact hom (Option.some.inj (((h.placed o waiter).mp hin).symm.trans hwaiter))
        have hsorted := ho' o hflag
        rw [show ({ unlist k waiter with sched := s', mutex := Function.update k.mutex m y } : Kernel T M O).object o =
          { k.object o with suspendThread := (k.object o).suspendThread.erase waiter } from rfl] at hsorted
        simp only [List.erase_of_not_mem hnot] at hsorted
        have hrank : ∀ u ∈ (k.object o).suspendThread,
            Kernel.rank { unlist k waiter with sched := s', mutex := Function.update k.mutex m y } u =
              Kernel.rank { k with sched := s, mutex := Function.update k.mutex m y } u := by
          intro u hu
          refine Kernel.rank_eq rfl (hstays u o ?_ ((h.placed o u).mp hu)).2
          rintro rfl
          exact hnot hu
        exact (sortedBy_congr hrank).mp hsorted
    · intro ho'
      have hwaits : Waits { k with sched := s, mutex := Function.update k.mutex m y } :=
        h.setSched fun u o hu => (hkeep u o hu).1
      have hpopped : Ordered { unlist { k with sched := s, mutex := Function.update k.mutex m y } waiter with sched := s' } :=
        Ordered.unlist hwaits ho' fun u o hu hplace => (hstays u o hu hplace).2
      exact hpopped

omit [DecidableEq O] in
theorem rtMutexRelease_kept (hmax : prioMax ≤ 256) {m : M} {r : Kernel T M O × RtErr} (h : Kept prioMax k)
    (ho : Ordered k) (hs : rtMutexRelease prioMax k m = some r) :
    Waits r.1 ∧ Held r.1 ∧ (Ordered r.1 ↔ KeepsOrder k (.mutexRelease m)) := by
  obtain ⟨thread, hcur, hs⟩ := Option.bind_eq_some_iff.mp hs
  have hself : ∀ {t}, t ∈ k.sched.currentThread → t = thread := fun ht => Option.some.inj (ht.symm.trans hcur)
  simp only at hs
  split at hs
  · rename_i howner
    cases hs
    refine ⟨h.waits.setError thread .error, ⟨h.held.free, h.held.owner⟩,
      iff_of_true ((ordered_setError h.waits thread .error).mpr ho) fun t ht hown => ?_⟩
    rw [hself ht] at hown
    exact absurd hown howner
  · rename_i howner
    have hown := not_not.mp howner
    split at hs
    · rename_i hhold
      cases hs
      obtain ⟨hwaits, hheld, hordered⟩ := h.setMutex (s := k.sched)
        (y := { k.mutex m with hold := dec 8 (k.mutex m).hold }) ho
        (fun u o hu => ⟨h.waits.suspended u o hu, rfl⟩) (h.held.free m) (h.held.owner m)
      exact ⟨hwaits, hheld, iff_of_true hordered fun t _ _ hzero => absurd hzero hhold⟩
    · rename_i hhold
      have hcond : KeepsOrder k (.mutexRelease m) ↔ KeepsPlace k thread (k.mutex m).originalPriority := by
        refine ⟨fun hkeeps => hkeeps thread hcur hown (not_not.mp hhold), fun hkeeps t ht _ _ => ?_⟩
        rw [hself ht]
        exact hkeeps
      rw [hcond]
      obtain ⟨s, hrestored, hkeep⟩ := @restore_keeps T M O _ prioMax k h.waits thread (k.mutex m).originalPriority
      have hinv := @restore_inv T M O _ prioMax k thread hmax m h.ready (by rw [hown]; exact Option.some_ne_none thread)
      rw [← hrestored] at hs hinv
      split at hs
      · rename_i waiter rest hlist
        obtain ⟨s', hsched, rfl⟩ := Option.map_eq_some_iff.mp hs
        have hwaiter : (s.thread waiter).stat = .suspend := by
          refine (hkeep waiter (.inl m) ((h.waits.placed _ waiter).mp ?_)).1
          rw [hlist]
          exact List.mem_cons_self
        rw [resume, if_pos hwaiter] at hsched ⊢
        exact handed_kept hmax h.waits h.held ho hlist hown rfl rfl hinv hkeep hsched
      · rename_i hlist
        cases hs
        refine ⟨h.waits.setSched fun u o hu => (hkeep u o hu).1, h.held.setMutex (fun _ => hlist) nofun, ?_⟩
        exact ordered_control h.waits ho fun u o hu => (hkeep u o hu).2

omit [DecidableEq M] [DecidableEq O] in
theorem call_kept (hmax : prioMax ≤ 256) {a : Scheduler.Act T} (h : Kept prioMax k) (ho : Ordered k)
    (hs : call prioMax k a = some k') :
    Waits k' ∧ Held k' ∧ (Ordered k' ↔ ∀ c ∈ controlled a, KeepsPlace k c.1 c.2) := by
  obtain ⟨s, hsched, rfl⟩ := Option.map_eq_some_iff.mp hs
  have hcall : ∀ u o, k.place u = some o → unlisted k.sched a ≠ some u →
      (s.thread u).stat = .suspend ∧ (s.thread u).currentPriority = changed a u (k.prio u) :=
    fun u o hu hout => call_suspended hmax h.ready.sched hsched (h.waits.suspended u o hu) hout
  cases hout : unlisted k.sched a with
  | none =>
    rw [hout] at hcall
    refine ⟨h.waits.setSched fun u o hu => (hcall u o hu nofun).1, ⟨h.held.free, h.held.owner⟩, ?_⟩
    cases hcontrol : controlled a with
    | some c =>
      simp only [changed, hcontrol] at hcall
      refine (ordered_control h.waits ho fun u o hu => (hcall u o hu nofun).2).trans ?_
      simp only [Option.mem_def, Option.some.injEq, forall_eq']
    | none =>
      simp only [changed, hcontrol] at hcall
      exact iff_of_true ((ordered_setSched h.waits fun u o hu => (hcall u o hu nofun).2).mpr ho) nofun
  | some t =>
    rw [hout] at hcall
    have hcontrol : controlled a = none := by
      cases a with
      | control v priority => cases hout
      | _ => rfl
    simp only [changed, hcontrol] at hcall ⊢
    have hother : ∀ u, u ≠ t → some t ≠ some u := fun u hut heq => hut (Option.some.inj heq).symm
    refine ⟨h.waits.unlist fun u o hut hu => (hcall u o hu (hother u hut)).1, h.held.unlist, ?_⟩
    exact iff_of_true (ho.unlist h.waits fun u o hut hu => (hcall u o hu (hother u hut)).2) nofun

theorem step_kept (hmax : prioMax ≤ 256) {a : Act T M O} (h : Kept prioMax k) (ho : Ordered k)
    (hs : step prioMax k a = some k') : Kept prioMax k' ∧ (Ordered k' ↔ KeepsOrder k a) := by
  have hready := step_ready hmax h.ready hs
  cases a with
  | call a =>
    obtain ⟨hwaits, hheld, hiff⟩ := call_kept hmax h ho hs
    exact ⟨⟨hready, hwaits, hheld⟩, hiff⟩
  | mutexTake m time =>
    obtain ⟨hwaits, hheld, hiff⟩ := rtMutexTake_kept hmax h ho hs
    exact ⟨⟨hready, hwaits, hheld⟩, hiff⟩
  | mutexRelease m =>
    obtain ⟨r, hr, rfl⟩ := Option.map_eq_some_iff.mp hs
    obtain ⟨hwaits, hheld, hiff⟩ := rtMutexRelease_kept hmax h ho hr
    exact ⟨⟨hready, hwaits, hheld⟩, hiff⟩
  | ipcSuspend o time =>
    obtain ⟨thread, -, hs⟩ := Option.bind_eq_some_iff.mp hs
    have hclear := h.waits.setError thread .eok
    have hjoined := suspend_joined hmax (h.ready.setSched (setError_inv h.ready.sched .eok)) hs
    refine ⟨⟨hready, hjoined.waits hclear, hjoined.held ⟨h.held.free, h.held.owner⟩ nofun⟩, ?_⟩
    exact (hjoined.ordered_iff hclear).trans (iff_of_true ((ordered_setError h.waits thread .eok).mpr ho) trivial)
  | ipcResume o =>
    obtain ⟨thread, -, rfl⟩ := Option.map_eq_some_iff.mp hs
    obtain ⟨hwaits, hheld, hordered⟩ := resume_kept h.waits h.held prioMax thread
    exact ⟨⟨hready, hwaits, hheld⟩, iff_of_true (hordered ho) trivial⟩
  | ipcResumeAll o =>
    obtain ⟨thread, -, rfl⟩ := Option.map_eq_some_iff.mp hs
    obtain ⟨hwaits, hheld, hordered⟩ := resume_kept (h.waits.setError thread .error) ⟨h.held.free, h.held.owner⟩ prioMax thread
    exact ⟨⟨hready, hwaits, hheld⟩, iff_of_true (hordered ((ordered_setError h.waits thread .error).mpr ho)) trivial⟩

/-- In every run the lists of the objects with `RT_IPC_FLAG_PRIO` stay in order, and `rt_ipc_list_resume` wakes a most
urgent thread, exactly if no change of the priority of a waiting thread moves it past another one of its list. -/
theorem suspend_lists_ordered_iff (hmax : prioMax ≤ 256) {thread : T → Thread} {flag : M ⊕ O → IpcFlag}
    (hthread : ∀ t, ∃ p isSystem cleanup, p < prioMax ∧ thread t = rtThreadInit p isSystem cleanup)
    (acts : List (Act T M O)) :
    AllStates (step prioMax) (fun k => Ordered k ∧ WakesUrgent k) (initial thread flag) acts ↔
      AllSteps (step prioMax) KeepsOrder (initial thread flag) acts := by
  have hstep : ∀ (k : Kernel T M O) a k', Kept prioMax k → Ordered k ∧ WakesUrgent k → step prioMax k a = some k' →
      Kept prioMax k' ∧ (Ordered k' ↔ KeepsOrder k a) := fun k a k' h ho hs => step_kept hmax h ho.1 hs
  apply allStates_iff_allSteps_of_inv (Kept prioMax) (fun k => Ordered k ∧ WakesUrgent k) KeepsOrder
  · exact fun k a k' h ho hs => (hstep k a k' h ho hs).1
  · intro k a k' h ho hs
    rw [← (hstep k a k' h ho hs).2]
    exact ⟨fun ho' => ho'.1, fun ho' => ⟨ho', ho'.wakesUrgent⟩⟩
  · have hempty : ∀ o t, t ∈ ((initial thread flag).object o).suspendThread ↔ (initial thread flag).place t = some o :=
      fun o t => iff_of_false List.not_mem_nil nofun
    exact ⟨⟨init_inv hthread, fun _ h => absurd rfl h⟩, ⟨hempty, fun _ => List.nodup_nil, nofun, nofun, nofun⟩,
      ⟨fun _ _ => rfl, nofun⟩⟩
  · have hordered : Ordered (initial thread flag) := fun o _ => List.Pairwise.nil
    exact ⟨hordered, hordered.wakesUrgent⟩

/-- The threads 0, 1 and 2 have the priorities 5, 6 and 7; the first two wait for an object. -/
def waiting : Kernel ℕ ℕ ℕ := initial (fun t => rtThreadInit (if t < 3 then 5 + t else 8) false false) fun _ => .prio

def waitRun : List (Act ℕ ℕ ℕ) :=
  [.call (.startup 0), .call (.startup 1), .call (.startup 2), .call .start, .ipcSuspend 0 (-1), .ipcSuspend 0 (-1)]

theorem suspend_lists_ordered_iff_sample :
    AllStates (step 32) (fun k => Ordered k ∧ WakesUrgent k) waiting (waitRun ++ [.call (.control 0 6), .ipcResume 0]) := by
  refine (suspend_lists_ordered_iff (by decide) (fun t => ?_) _).mpr (by decide)
  refine ⟨if t < 3 then 5 + t else 8, false, false, ?_, rfl⟩
  split <;> omega

/-- The first of the two threads gets a lower priority than the second one, and is still woken first. -/
theorem control_breaks_order :
    ∃ k, exec (step 32) waiting (waitRun ++ [.call (.control 0 9)]) = some k ∧ (k.object (.inr 0)).flag = .prio ∧
      ¬Ordered k ∧ ¬WakesUrgent k := by
  have hrun : (exec (step 32) waiting (waitRun ++ [.call (.control 0 9)])).map (fun k =>
      ((k.object (.inr 0)).flag, (k.object (.inr 0)).suspendThread, k.prio 0, k.prio 1)) = some (.prio, [0, 1], 9, 6) := by
    decide
  obtain ⟨k, hk, hstate⟩ := Option.map_eq_some_iff.mp hrun
  simp only [Prod.mk.injEq] at hstate
  obtain ⟨hflag, hlist, hprio₀, hprio₁⟩ := hstate
  have hnot : ¬WakesUrgent k := by
    intro hwakes
    have hle := hwakes (.inr 0) 0 hflag (by rw [hlist]; rfl) 1 (by rw [hlist]; decide)
    omega
  exact ⟨k, hk, hflag, fun ho => hnot ho.wakesUrgent, hnot⟩

end RtThread.Sched.WaitLists
