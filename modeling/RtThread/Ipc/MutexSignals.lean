import RtThread.Ipc.MutexRuns

/-!
# Signals for threads that take a mutex (`ipc.c:653-778`, `signal.c:81-133`, `signal.c:294-343`)

With `RT_USING_SIGNALS` a signal resumes a thread that waits for a mutex; the thread handles it and finds
`-RT_EINTR` in `thread->error`, with which `rt_mutex_take` goes back to `__again`. Nothing resets the error there.
The section from `__again` on is one step here, although it runs with interrupts enabled.
-/

namespace RtThread.Ipc.Mutex.Signals

open RtThread.Lib.Transition RtThread.Ipc.Base RtThread.Ipc.Calls

variable {T M : Type*} [DecidableEq T] [DecidableEq M]

inductive Act (T M : Type*) where
  | call (a : Mutex.Act T M)
  | kill (t : T) (info : Bool)

/-- What handling the signal leaves in `thread->error`. Without a node that holds the information about the signal,
when `rt_mp_alloc` has failed, nothing is handled (`signal.c:312`). -/
def rtThreadHandleSig (th : Thread) (info : Bool) : Thread :=
  if info = true then { th with error := .eintr } else th

omit [DecidableEq M] in
/-- `rt_thread_kill` on a thread that is suspended: it leaves the suspend list, and handles the signal before it does
anything else. -/
def rtThreadKill (s : State T M) (t : T) (info : Bool) : State T M :=
  { s with mutex := fun m => { s.mutex m with suspendThread := (s.mutex m).suspendThread.erase t } }.setThread t
    fun th => rtThreadHandleSig th.resume info

/-- One section, or a signal for a thread in a call of `rt_mutex_take`. A thread that is not suspended any more gets
a context of its own for the handler. -/
def step (s : Sys T M) : Act T M → Option (Sys T M)
  | .call a => Mutex.step s a
  | .kill t info =>
    match s.hist.pc t with
    | .suspended => some { s with state := rtThreadKill s.state t info, hist := s.hist.expire t }
    | .resumed => some { s with state := s.state.setThread t fun th => rtThreadHandleSig th info }
    | .idle => none

/-- The thread, the mutex and the result of a call of `rt_mutex_take` that returns in this step. -/
def returned (s : Sys T M) : Act T M → Option (T × M × RtErr)
  | .call (.take t m time) => (rtMutexTake s.state t m time).bind fun r =>
    match r.2 with
    | .granted => some (t, m, .eok)
    | .refused e => some (t, m, e)
    | .suspended => none
  | .call (.takeReturn t) => (s.args t).bind fun a =>
    if (s.state.thread t).error = .eintr then
      (rtMutexTakeAgain s.state t a.1 a.2).bind fun r =>
        match r.2 with
        | .granted => some (t, a.1, .eok)
        | .refused e => some (t, a.1, e)
        | .suspended => none
    else some (t, a.1, (s.state.thread t).error)
  | _ => none

omit [DecidableEq T] [DecidableEq M] in
/-- A thread that goes back to `__again` does not own the mutex, and each signal for a waiting thread leaves its
error, unless an earlier one has. -/
def Fits (s : Sys T M) : Act T M → Prop
  | .call (.takeReturn t) => (s.state.thread t).error = .eintr →
      ∀ a ∈ s.args t, (s.state.mutex a.1).owner ≠ some t
  | .kill t info => s.hist.pc t = .suspended → info = true ∨ (s.state.thread t).error = .eintr
  | _ => True

instance Fits.decidable (s : Sys T M) : (a : Act T M) → Decidable (Fits s a)
  | .call (.takeReturn t) => inferInstanceAs
      (Decidable ((s.state.thread t).error = .eintr → ∀ a ∈ s.args t, (s.state.mutex a.1).owner ≠ some t))
  | .kill t info => inferInstanceAs
      (Decidable (s.hist.pc t = .suspended → info = true ∨ (s.state.thread t).error = .eintr))
  | .call (.take ..) => isTrue trivial
  | .call (.release ..) => isTrue trivial
  | .call (.timeout _) => isTrue trivial

/-! ### Where a thread is -/

/-- A thread is outside of its calls, waits for one mutex, or has left its list and is to read its error. -/
inductive Place (s : Sys T M) (t : T) : Prop where
  | idle (hpc : s.hist.pc t = .idle) (hout : ∀ n, t ∉ (s.state.mutex n).suspendThread)
  | suspended (hpc : s.hist.pc t = .suspended) {m : M} {time : ℤ} (hargs : s.args t = some (m, time))
      (hin : ∀ n, t ∈ (s.state.mutex n).suspendThread ↔ n = m)
      (herr : (s.state.thread t).error = .eok ∨ (s.state.thread t).error = .eintr)
  | resumed (hpc : s.hist.pc t = .resumed) {m : M} {time : ℤ} (hargs : s.args t = some (m, time))
      (hout : ∀ n, t ∉ (s.state.mutex n).suspendThread)
      (herr : (s.state.thread t).error = .eok ∧ (s.state.mutex m).owner = some t ∨
        (s.state.thread t).error = .etimeout ∧ (s.state.mutex m).owner ≠ some t ∨
        (s.state.thread t).error = .eintr)

structure Inv (s : Sys T M) : Prop where
  mutexOk : ∀ m, MutexOk (s.state.mutex m)
  place : ∀ t, Place s t

/-- The thread `u` is where it was. -/
structure Same (s s' : Sys T M) (u : T) : Prop where
  pc : s'.hist.pc u = s.hist.pc u
  args : s'.args u = s.args u
  error : s.hist.pc u ≠ .idle → (s'.state.thread u).error = (s.state.thread u).error
  list : ∀ n, u ∈ (s'.state.mutex n).suspendThread ↔ u ∈ (s.state.mutex n).suspendThread
  owner : s.hist.pc u ≠ .idle → ∀ n, (s'.state.mutex n).owner = some u ↔ (s.state.mutex n).owner = some u

variable {s s' : Sys T M} {t u w : T} {m : M}

omit [DecidableEq T] [DecidableEq M] in
theorem Place.same (h : Place s u) (hs : Same s s' u) : Place s' u := by
  cases h with
  | idle hpc hout => exact .idle (hs.pc.trans hpc) fun n hn => hout n ((hs.list n).mp hn)
  | suspended hpc hargs hin herr =>
    refine .suspended (hs.pc.trans hpc) (hs.args.trans hargs) (fun n => (hs.list n).trans (hin n)) ?_
    rw [hs.error (by rw [hpc]; decide)]
    exact herr
  | resumed hpc hargs hout herr =>
    have hbusy : s.hist.pc u ≠ .idle := by rw [hpc]; decide
    refine .resumed (hs.pc.trans hpc) (hs.args.trans hargs) (fun n hn => hout n ((hs.list n).mp hn)) ?_
    rw [hs.error hbusy, ne_eq, hs.owner hbusy]
    exact herr

omit [DecidableEq T] [DecidableEq M] in
theorem Place.not_mem (h : Place s t) (hpc : s.hist.pc t ≠ .suspended) (n : M) :
    t ∉ (s.state.mutex n).suspendThread := by
  cases h with
  | idle _ hout => exact hout n
  | suspended hpc' => exact absurd hpc' hpc
  | resumed _ _ hout => exact hout n

omit [DecidableEq T] [DecidableEq M] in
theorem start_inv (flag : M → IpcFlag) (thread : T → Thread) : Inv (start flag thread) :=
  ⟨fun m => rtMutexInit_ok (flag m), fun _ => .idle rfl fun _ => List.not_mem_nil⟩

/-! ### What a step does to the places -/

variable {x : RtMutex T}

omit [DecidableEq T] in
theorem mutexOk_update (h : Inv s) (hmx : s'.state.mutex = Function.update s.state.mutex m x) (hx : MutexOk x) (n : M) :
    MutexOk (s'.state.mutex n) := by
  rw [hmx]
  by_cases hn : n = m
  · rw [hn, Function.update_self]
    exact hx
  · rw [Function.update_of_ne hn]
    exact h.mutexOk n

omit [DecidableEq T] in
theorem Same.of_update (hmx : s'.state.mutex = Function.update s.state.mutex m x) (hpc : s'.hist.pc u = s.hist.pc u)
    (hargs : s'.args u = s.args u)
    (herr : s.hist.pc u ≠ .idle → (s'.state.thread u).error = (s.state.thread u).error)
    (hlist : u ∈ x.suspendThread ↔ u ∈ (s.state.mutex m).suspendThread)
    (howner : s.hist.pc u ≠ .idle → (x.owner = some u ↔ (s.state.mutex m).owner = some u)) : Same s s' u := by
  refine ⟨hpc, hargs, herr, fun n => ?_, fun hbusy n => ?_⟩
  · rw [hmx]
    by_cases hn : n = m
    · rw [hn, Function.update_self]
      exact hlist
    · rw [Function.update_of_ne hn]
  · rw [hmx]
    by_cases hn : n = m
    · rw [hn, Function.update_self]
      exact howner hbusy
    · rw [Function.update_of_ne hn]

omit [DecidableEq M] in
theorem clear_error (hut : u ≠ t) : ((s.state.clear t).thread u).error = (s.state.thread u).error := by
  rw [State.clear, setThread_of_ne _ hut]

omit [DecidableEq T] [DecidableEq M] in
theorem ne_of_busy (hpc : s.hist.pc t = .idle) (hbusy : s.hist.pc u ≠ .idle) : u ≠ t := by
  rintro rfl
  exact hbusy hpc

theorem waiting_error (st : State T M) (owner t : T) (m : M) (x : RtMutex T) (time : ℤ) (u : T) :
    ((((inherit st owner t).setMutex m x).setThread t fun th => th.suspend time).thread u).error =
      (st.thread u).error :=
  (setThread_keeps Thread.error ((inherit st owner t).setMutex m x) t (fun th => th.suspend time)
    (fun _ => rfl) u).trans (inherit_keeps Thread.error (fun _ _ => rfl) st owner t u)

theorem Inv.join (h : Inv s) {time : ℤ} {owner : T} {prio : T → ℕ} (hout : ∀ n, t ∉ (s.state.mutex n).suspendThread)
    (howner : (s.state.mutex m).owner = some owner) (hne : owner ≠ t)
    (hmx : s'.state.mutex = Function.update s.state.mutex m ((s.state.mutex m).enqueue prio t))
    (hpc : s'.hist.pc = Function.update s.hist.pc t .suspended)
    (hargs : s'.args = Function.update s.args t (some (m, time)))
    (herr : ∀ u, u ≠ t → (s'.state.thread u).error = (s.state.thread u).error)
    (hself : (s'.state.thread t).error = .eok ∨ (s'.state.thread t).error = .eintr) : Inv s' := by
  have hlist : ∀ u, u ∈ ((s.state.mutex m).enqueue prio t).suspendThread ↔
      u = t ∨ u ∈ (s.state.mutex m).suspendThread := fun u => mem_rtIpcListSuspend
  refine ⟨mutexOk_update h hmx ((h.mutexOk m).enqueue howner hne (hout m) prio), fun u => ?_⟩
  by_cases hut : u = t
  · subst hut
    refine .suspended (by rw [hpc, Function.update_self]) (by rw [hargs, Function.update_self]) (fun n => ?_) hself
    rw [hmx]
    by_cases hn : n = m
    · rw [hn, Function.update_self, hlist]
      exact iff_of_true (Or.inl rfl) rfl
    · rw [Function.update_of_ne hn]
      exact iff_of_false (hout n) hn
  · refine (h.place u).same (Same.of_update hmx ?_ ?_ (fun _ => herr u hut) ?_ fun _ => Iff.rfl)
    · rw [hpc, Function.update_of_ne hut]
    · rw [hargs, Function.update_of_ne hut]
    · rw [hlist, or_iff_right hut]

theorem take_inv (h : Inv s) {time : ℤ} (hs : Mutex.step s (.take t m time) = some s') : Inv s' := by
  cases take_effect hs with
  | recurse hpc howner =>
    refine ⟨mutexOk_update h rfl (h.mutexOk m).again, fun u => (h.place u).same ?_⟩
    exact Same.of_update rfl rfl rfl (fun hbusy => clear_error (ne_of_busy hpc hbusy)) Iff.rfl fun _ => Iff.rfl
  | acquire hpc howner hvalue =>
    have hnone := (h.mutexOk m).owner_eq_none hvalue
    refine ⟨mutexOk_update h rfl ((h.mutexOk m).acquire hvalue t _), fun u => (h.place u).same ?_⟩
    refine Same.of_update rfl rfl rfl (fun hbusy => clear_error (ne_of_busy hpc hbusy)) Iff.rfl fun hbusy => ?_
    rw [hnone]
    exact iff_of_false (fun heq => ne_of_busy hpc hbusy (Option.some.inj heq).symm) nofun
  | refuse hpc howner hvalue =>
    refine ⟨h.mutexOk, fun u => (h.place u).same ⟨rfl, rfl, fun hbusy => ?_, fun _ => Iff.rfl, fun _ _ => Iff.rfl⟩⟩
    have hut := ne_of_busy hpc hbusy
    rw [setThread_of_ne _ hut, clear_error hut]
  | @block _ _ _ owner hpc hot howner hvalue htime =>
    have hmx : ((inherit (s.state.clear t) owner t).setMutex m
        ((s.state.mutex m).enqueue (inherit (s.state.clear t) owner t).prio t)).mutex =
          Function.update s.state.mutex m ((s.state.mutex m).enqueue (inherit (s.state.clear t) owner t).prio t) := by
      rw [State.setMutex, inherit_mutex, clear_mutex]
    have herr := waiting_error (s.state.clear t) owner t m
      ((s.state.mutex m).enqueue (inherit (s.state.clear t) owner t).prio t) time
    refine h.join ((h.place t).not_mem (by rw [hpc]; decide)) howner hot hmx rfl rfl (fun u hut => ?_) (Or.inl ?_)
    · exact (herr u).trans (clear_error hut)
    · exact (herr t).trans (congrArg Thread.error (setThread_self s.state t _))

omit [DecidableEq M] in
theorem Inv.wake (h : Inv s) (hpc : s.hist.pc t = .suspended)
    (hmx : ∀ n, s'.state.mutex n = { s.state.mutex n with suspendThread := (s.state.mutex n).suspendThread.erase t })
    (hpc' : s'.hist.pc = Function.update s.hist.pc t .resumed) (hargs : s'.args = s.args)
    (herr : ∀ u, u ≠ t → (s'.state.thread u).error = (s.state.thread u).error)
    (hself : (s'.state.thread t).error = .etimeout ∨ (s'.state.thread t).error = .eintr) : Inv s' := by
  refine ⟨fun n => ?_, fun u => ?_⟩
  · rw [hmx]
    exact (h.mutexOk n).erase t
  · have hmem : ∀ n, u ∈ (s'.state.mutex n).suspendThread ↔ u ≠ t ∧ u ∈ (s.state.mutex n).suspendThread := by
      intro n
      rw [hmx]
      exact (h.mutexOk n).nodup.mem_erase_iff
    by_cases hut : u = t
    · subst hut
      cases h.place u with
      | idle hidle => rw [hpc] at hidle; cases hidle
      | resumed hresumed => rw [hpc] at hresumed; cases hresumed
      | @suspended _ m time ha hin =>
        have hnot := ((h.mutexOk m).owned u · |>.2 ((hin m).mpr rfl))
        refine .resumed (by rw [hpc', Function.update_self]) (by rw [hargs, ha]) (fun n hn => ((hmem n).mp hn).1 rfl) ?_
        rcases hself with htimeout | hintr
        · refine Or.inr (Or.inl ⟨htimeout, ?_⟩)
          rw [hmx]
          exact hnot
        · exact Or.inr (Or.inr hintr)
    · refine (h.place u).same ⟨?_, by rw [hargs], fun _ => herr u hut, fun n => ?_, fun _ n => ?_⟩
      · rw [hpc', Function.update_of_ne hut]
      · rw [hmem]
        exact and_iff_right hut
      · rw [hmx]

omit [DecidableEq M] in
theorem Inv.leave (h : Inv s) (hpc : s.hist.pc t = .resumed)
    (hmx : ∀ n, MutexOk (s'.state.mutex n))
    (hlist : ∀ n, (s'.state.mutex n).suspendThread = (s.state.mutex n).suspendThread)
    (howner : ∀ u n, u ≠ t → ((s'.state.mutex n).owner = some u ↔ (s.state.mutex n).owner = some u))
    (hpc' : s'.hist.pc = Function.update s.hist.pc t .idle) (hargs : s'.args = s.args)
    (herr : ∀ u, u ≠ t → (s'.state.thread u).error = (s.state.thread u).error) : Inv s' := by
  refine ⟨hmx, fun u => ?_⟩
  by_cases hut : u = t
  · subst hut
    refine .idle (by rw [hpc', Function.update_self]) fun n => ?_
    rw [hlist]
    exact (h.place u).not_mem (by rw [hpc]; decide) n
  · refine (h.place u).same ⟨?_, by rw [hargs], fun _ => herr u hut, fun n => by rw [hlist], fun _ n => howner u n hut⟩
    rw [hpc', Function.update_of_ne hut]

theorem release_inv (h : Inv s) (hs : Mutex.step s (.release t m) = some s') : Inv s' := by
  cases release_effect hs with
  | deny hpc howner =>
    refine ⟨h.mutexOk, fun u => (h.place u).same ⟨rfl, rfl, fun hbusy => ?_, fun _ => Iff.rfl, fun _ _ => Iff.rfl⟩⟩
    rw [setThread_of_ne _ (ne_of_busy hpc hbusy)]
  | unnest hpc howner hhold =>
    refine ⟨mutexOk_update h rfl (h.mutexOk m).unnest, fun u => (h.place u).same ?_⟩
    exact Same.of_update rfl rfl rfl (fun _ => rfl) Iff.rfl fun _ => Iff.rfl
  | free hpc howner hhold hlist =>
    have hmx : ((restore s.state t (s.state.mutex m).originalPriority).setMutex m (s.state.mutex m).free).mutex =
        Function.update s.state.mutex m (s.state.mutex m).free := by
      rw [State.setMutex, restore_mutex]
    refine ⟨mutexOk_update h hmx ((h.mutexOk m).free howner hlist), fun u => (h.place u).same ?_⟩
    refine Same.of_update hmx rfl rfl (fun _ => ?_) Iff.rfl fun hbusy => ?_
    · exact restore_keeps Thread.error (fun _ _ => rfl) s.state t u _
    · rw [howner]
      exact iff_of_false (Option.some_ne_none _).symm fun heq => ne_of_busy hpc hbusy (Option.some.inj heq).symm
  | @hand _ _ w rest hpc howner hhold hlist =>
    obtain ⟨p, hp⟩ : ∃ p, p = (restore s.state t (s.state.mutex m).originalPriority).prio w := ⟨_, rfl⟩
    rw [← hp]
    have hmx : ((restore s.state t (s.state.mutex m).originalPriority).setMutex m
        ((s.state.mutex m).hand w p rest)).mutex =
          Function.update s.state.mutex m ((s.state.mutex m).hand w p rest) := by
      rw [State.setMutex, restore_mutex]
    have herr : ∀ u, ((((restore s.state t (s.state.mutex m).originalPriority).setMutex m
        ((s.state.mutex m).hand w p rest)).setThread w Thread.resume).thread u).error = (s.state.thread u).error :=
      fun u => (setThread_keeps Thread.error ((restore s.state t (s.state.mutex m).originalPriority).setMutex m
        ((s.state.mutex m).hand w p rest)) w Thread.resume (fun _ => rfl) u).trans
        (restore_keeps Thread.error (fun _ _ => rfl) s.state t u _)
    have hmem : w ∈ (s.state.mutex m).suspendThread := by
      rw [hlist]
      exact List.mem_cons_self
    refine ⟨mutexOk_update h hmx ((h.mutexOk m).hand howner hlist p), fun u => ?_⟩
    by_cases huw : u = w
    · subst huw
      cases h.place u with
      | idle _ hout => exact absurd hmem (hout m)
      | resumed _ _ hout => exact absurd hmem (hout m)
      | @suspended _ n time ha hin hwait =>
        obtain rfl := (hin m).mp hmem
        have hout : ∀ n, u ∉ (Function.update s.state.mutex m ((s.state.mutex m).hand u p rest) n).suspendThread := by
          intro n
          by_cases hn : n = m
          · rw [hn, Function.update_self]
            have hnodup := (h.mutexOk m).nodup
            rw [hlist] at hnodup
            exact (List.nodup_cons.mp hnodup).1
          · rw [Function.update_of_ne hn]
            exact fun hmem' => hn ((hin n).mp hmem')
        refine .resumed (Function.update_self ..) ha (fun n => ?_) ?_
        · rw [← hmx] at hout
          exact hout n
        · have howned : (Function.update s.state.mutex m ((s.state.mutex m).hand u p rest) m).owner = some u := by
            rw [Function.update_self]
            rfl
          rw [← hmx] at howned
          rcases hwait with heok | hintr
          · exact Or.inl ⟨(herr u).trans heok, howned⟩
          · exact Or.inr (Or.inr ((herr u).trans hintr))
    · refine (h.place u).same (Same.of_update hmx ?_ rfl (fun _ => herr u) ?_ fun hbusy => ?_)
      · exact Function.update_of_ne huw _ _
      · rw [hlist, List.mem_cons, or_iff_right huw]
        rfl
      · rw [howner]
        exact iff_of_false (fun heq => huw (Option.some.inj heq).symm) fun heq =>
          ne_of_busy hpc hbusy (Option.some.inj heq).symm

theorem takeAgain_inv (h : Inv s) {time : ℤ} (hpc : s.hist.pc t = .resumed) (hargs : s.args t = some (m, time))
    (herr : (s.state.thread t).error = .eintr) (hne : (s.state.mutex m).owner ≠ some t) {r : State T M × Taken}
    (hr : rtMutexTakeAgain s.state t m time = some r) : Inv (s.recordAgain t m r.1 r.2) := by
  have hout := (h.place t).not_mem (by rw [hpc]; decide)
  simp only [rtMutexTakeAgain] at hr
  split at hr
  · rename_i hvalue
    cases hr
    have hnone := (h.mutexOk m).owner_eq_none hvalue
    refine h.leave hpc (mutexOk_update h rfl ((h.mutexOk m).acquire hvalue t _)) ?_ ?_ ?_ rfl fun _ _ => rfl
    · exact setMutex_keeps RtMutex.suspendThread s.state m ((s.state.mutex m).acquire t _) rfl
    · intro u n hut
      show ((s.state.setMutex m ((s.state.mutex m).acquire t _)).mutex n).owner = some u ↔ _
      by_cases hn : n = m
      · rw [hn, setMutex_self, hnone]
        exact iff_of_false (fun heq => hut (Option.some.inj heq).symm) (Option.some_ne_none u).symm
      · rw [setMutex_of_ne _ hn]
    · exact Function.update_idem ..
  · rename_i hvalue
    split at hr
    · cases hr
      refine h.leave hpc h.mutexOk (fun _ => rfl) (fun _ _ _ => Iff.rfl) rfl rfl fun u hut => ?_
      exact congrArg Thread.error (setThread_of_ne s.state hut fun th => { th with error := .etimeout })
    · split at hr
      · cases hr
      · rename_i owner howner
        cases hr
        have hot : owner ≠ t := by
          rintro rfl
          exact hne howner
        have hmx : ((inherit s.state owner t).setMutex m
            ((s.state.mutex m).enqueue (inherit s.state owner t).prio t)).mutex =
              Function.update s.state.mutex m ((s.state.mutex m).enqueue (inherit s.state owner t).prio t) := by
          rw [State.setMutex, inherit_mutex]
        have hkeep := waiting_error s.state owner t m ((s.state.mutex m).enqueue (inherit s.state owner t).prio t) time
        have hsame : s.args = Function.update s.args t (some (m, time)) := by
          rw [← hargs, Function.update_eq_self]
        exact h.join hout howner hot hmx rfl hsame (fun u _ => hkeep u) (Or.inr ((hkeep t).trans herr))

theorem takeReturn_inv (h : Inv s) (hfits : Fits s (.call (.takeReturn t)))
    (hs : Mutex.step s (.takeReturn t) = some s') : Inv s' := by
  simp only [Mutex.step, Option.ite_none_right_eq_some] at hs
  obtain ⟨hpc, hs⟩ := hs
  split at hs
  · rename_i herr
    simp only [Option.bind_eq_some_iff, Option.map_eq_some_iff] at hs
    obtain ⟨⟨m, time⟩, hargs, r, hr, rfl⟩ := hs
    exact takeAgain_inv h hpc hargs herr (hfits herr _ hargs) hr
  · cases hs
    exact h.leave hpc h.mutexOk (fun _ => rfl) (fun _ _ _ => Iff.rfl) rfl rfl fun _ _ => rfl

omit [DecidableEq M] in
theorem kill_error (s : State T M) (info : Bool) (hut : u ≠ t) :
    ((rtThreadKill s t info).thread u).error = (s.thread u).error :=
  congrArg Thread.error (setThread_of_ne _ hut _)

theorem handleSig_error {th : Thread} {info : Bool} (h : info = true ∨ th.error = .eintr) :
    (rtThreadHandleSig th info).error = .eintr := by
  unfold rtThreadHandleSig
  split
  · rfl
  · rename_i hinfo
    exact h.resolve_left hinfo

theorem kill_inv (h : Inv s) {info : Bool} (hfits : Fits s (.kill t info)) (hs : step s (.kill t info) = some s') :
    Inv s' := by
  simp only [step] at hs
  split at hs
  · rename_i hpc
    cases hs
    refine h.wake hpc (fun _ => rfl) rfl rfl (fun u hut => kill_error s.state info hut) (Or.inr ?_)
    have hself : (rtThreadKill s.state t info).thread t = rtThreadHandleSig (s.state.thread t).resume info :=
      Function.update_self ..
    show ((rtThreadKill s.state t info).thread t).error = .eintr
    rw [hself]
    exact handleSig_error (hfits hpc)
  · rename_i hpc
    cases hs
    refine ⟨h.mutexOk, fun u => ?_⟩
    by_cases hut : u = t
    · subst hut
      cases h.place u with
      | idle hidle => rw [hpc] at hidle; cases hidle
      | suspended hsuspended => rw [hpc] at hsuspended; cases hsuspended
      | resumed _ hargs hout herr =>
        refine .resumed hpc hargs hout ?_
        show _ ∧ (s.state.mutex _).owner = _ ∨ _ ∧ (s.state.mutex _).owner ≠ _ ∨ _
        rw [setThread_self]
        by_cases hinfo : info = true
        · exact Or.inr (Or.inr (handleSig_error (Or.inl hinfo)))
        · rw [rtThreadHandleSig, if_neg hinfo]
          exact herr
    · refine (h.place u).same ⟨rfl, rfl, fun _ => ?_, fun _ => Iff.rfl, fun _ _ => Iff.rfl⟩
      exact congrArg Thread.error (setThread_of_ne s.state hut fun th => rtThreadHandleSig th info)
  · cases hs

theorem step_inv (h : Inv s) {a : Act T M} (hfits : Fits s a) (hs : step s a = some s') : Inv s' := by
  cases a with
  | kill t info => exact kill_inv h hfits hs
  | call a =>
    cases a with
    | take t m time => exact take_inv h hs
    | takeReturn t => exact takeReturn_inv h hfits hs
    | release t m => exact release_inv h hs
    | timeout t =>
      simp only [step, Mutex.step, Option.ite_none_right_eq_some, Option.some.injEq] at hs
      obtain ⟨⟨hpc, -⟩, rfl⟩ := hs
      refine h.wake hpc (fun _ => rfl) rfl rfl (fun u hut => ?_) (Or.inl ?_)
      · exact congrArg Thread.error (setThread_of_ne s.state hut Thread.timeout)
      · exact congrArg Thread.error (setThread_self s.state t Thread.timeout)

/-! ### What a call returns -/

/-- The mutexes after a section from `__again` on, and what it returns: the object, or a failure to a thread that
does not own it. -/
def Honest (t : T) (m : M) (r : State T M × Taken) : Prop :=
  match r.2 with
  | .granted => (r.1.mutex m).owner = some t
  | .refused e => e ≠ .eok ∧ (r.1.mutex m).owner ≠ some t
  | .suspended => True

omit [DecidableEq T] [DecidableEq M] in
theorem Honest.returns {r : State T M × Taken} (h : Honest t m r) {w : T} {n : M} {e : RtErr}
    (hret : (match r.2 with
      | .granted => some (t, m, RtErr.eok)
      | .refused e => some (t, m, e)
      | .suspended => none) = some (w, n, e)) : e = .eok ↔ (r.1.mutex n).owner = some w := by
  rcases r with ⟨st, _ | e' | _⟩
  · cases hret
    exact iff_of_true rfl h
  · cases hret
    exact iff_of_false h.1 h.2
  · cases hret

end RtThread.Ipc.Mutex.Signals
