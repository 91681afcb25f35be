import RtThread.Ipc.MutexRuns

/-!
# Priority inheritance

`rt_mutex_take` raises the priority of the owner when a more urgent thread starts to
wait, and the last `rt_mutex_release` gives the owner the priority it had when it took
that mutex. Two properties are compared with what the steps do: the owner is at least
as urgent as every waiter (`Covered`), and a thread that owns no mutex is back at its
initial priority (`Restored`). For each, the runs that keep it are characterised by a
condition on the single steps.
-/

namespace RtThread.Ipc.Mutex

open RtThread.Lib.Word RtThread.Lib.Transition RtThread.Ipc.Base RtThread.Ipc.Calls

variable {T M : Type*}

/-- Every owner is at least as urgent as each thread that waits for its mutex. -/
def Covered (s : State T M) : Prop :=
  ∀ m o, (s.mutex m).owner = some o → ∀ w ∈ (s.mutex m).suspendThread, s.prio o ≤ s.prio w

/-- A thread that owns no mutex has its initial priority. -/
def Restored (s : State T M) : Prop :=
  ∀ t, (∀ m, (s.mutex m).owner ≠ some t) → s.prio t = (s.thread t).initPriority

/-- The state before a first call, with threads as `_rt_thread_init` leaves them. -/
def boot (flag : M → IpcFlag) (priority : T → ℕ) : Sys T M :=
  start flag fun t => rtThreadInit (priority t)

theorem boot_covered (flag : M → IpcFlag) (priority : T → ℕ) : Covered (boot flag priority).state :=
  nofun

theorem boot_restored (flag : M → IpcFlag) (priority : T → ℕ) : Restored (boot flag priority).state :=
  fun _ _ => rfl

theorem Covered.mono {s s' : State T M} (h : Covered s)
    (howner : ∀ m, (s'.mutex m).owner = (s.mutex m).owner)
    (hlist : ∀ m, ∀ w ∈ (s'.mutex m).suspendThread, w ∈ (s.mutex m).suspendThread)
    (hprio : s'.prio = s.prio) : Covered s' := by
  intro m o ho w hw
  rw [hprio]
  exact h m o ((howner m).symm.trans ho) w (hlist m w hw)

theorem Restored.mono {s s' : State T M} (h : Restored s)
    (howner : ∀ t, (∀ m, (s'.mutex m).owner ≠ some t) → ∀ m, (s.mutex m).owner ≠ some t)
    (hprio : ∀ t, (∀ m, (s'.mutex m).owner ≠ some t) → s'.prio t = s.prio t)
    (hinit : ∀ t, (s'.thread t).initPriority = (s.thread t).initPriority) : Restored s' := by
  intro t ht
  rw [hprio t ht, hinit]
  exact h t (howner t ht)

variable [DecidableEq T]

variable [DecidableEq M]

/-! ### What the steps do to priorities, owners and suspend lists -/

abbrev State.blocked (s : State T M) (t o : T) (m : M) (time : ℤ) : State T M :=
  ((inherit (s.clear t) o t).setMutex m
    ((s.mutex m).enqueue (inherit (s.clear t) o t).prio t)).setThread t fun th => th.suspend time

abbrev State.freed (s : State T M) (t : T) (m : M) : State T M :=
  (restore s t (s.mutex m).originalPriority).setMutex m (s.mutex m).free

abbrev State.handed (s : State T M) (t w : T) (m : M) (rest : List T) : State T M :=
  ((restore s t (s.mutex m).originalPriority).setMutex m
    ((s.mutex m).hand w ((restore s t (s.mutex m).originalPriority).prio w) rest)).setThread w
    Thread.resume

section Reads

variable (s : State T M) (t o w : T) (m n : M) (time : ℤ) (rest : List T)

theorem blocked_prio :
    (s.blocked t o m time).prio = Function.update s.prio o (min (s.prio o) (s.prio t)) := by
  refine (setThread_prio _ t _ fun _ => by rfl).trans ?_
  rw [setMutex_prio, inherit_prio, clear_prio]

theorem blocked_owner : ((s.blocked t o m time).mutex n).owner = (s.mutex n).owner := by
  rw [State.blocked, setThread_mutex, setMutex_keeps RtMutex.owner]
  · rw [inherit_mutex, clear_mutex]
  · rw [inherit_mutex, clear_mutex]
    rfl

theorem mem_blocked : w ∈ ((s.blocked t o m time).mutex n).suspendThread ↔
    (n = m ∧ w = t) ∨ w ∈ (s.mutex n).suspendThread := by
  by_cases hn : n = m
  · subst hn
    simp [RtMutex.enqueue]
  · simp [hn]

theorem freed_prio :
    (s.freed t m).prio = Function.update s.prio t (s.mutex m).originalPriority := by
  rw [State.freed, setMutex_prio, restore_prio]

theorem handed_prio :
    (s.handed t w m rest).prio = Function.update s.prio t (s.mutex m).originalPriority := by
  refine (setThread_prio _ w _ fun _ => by rfl).trans ?_
  rw [setMutex_prio, restore_prio]

theorem freed_mutex : (s.freed t m).mutex = Function.update s.mutex m (s.mutex m).free := by
  rw [State.freed, State.setMutex, restore_mutex]

theorem handed_mutex : ∃ p, (s.handed t w m rest).mutex =
    Function.update s.mutex m ((s.mutex m).hand w p rest) :=
  ⟨_, by rw [State.handed, setThread_mutex, State.setMutex, restore_mutex]⟩

end Reads

/-! ### Waiters are covered by the owner -/

/-- When a take suspends `t`, the owner that is raised to the priority of `t` must not
itself wait behind a less urgent owner. A last release must leave the thread at least
as urgent as the waiters of the mutexes that it keeps, and the mutex must go to the most
urgent waiter. -/
def BoostCovers (s : Sys T M) : Act T M → Prop
  | .take t m time => ∀ o, (s.state.mutex m).owner = some o → o ≠ t → time ≠ 0 →
      ∀ n o', (s.state.mutex n).owner = some o' → o ∈ (s.state.mutex n).suspendThread →
        s.state.prio o' ≤ s.state.prio t
  | .release t m => (s.state.mutex m).owner = some t → dec 8 (s.state.mutex m).hold = 0 →
      (∀ n, n ≠ m → (s.state.mutex n).owner = some t → ∀ w ∈ (s.state.mutex n).suspendThread,
        (s.state.mutex m).originalPriority ≤ s.state.prio w) ∧
      (∀ w rest, (s.state.mutex m).suspendThread = w :: rest →
        ∀ v ∈ rest, s.state.prio w ≤ s.state.prio v)
  | _ => True

theorem covered_blocked_iff {s : State T M} (h : Covered s) {t o : T} {m : M} (time : ℤ)
    (ho : (s.mutex m).owner = some o) (hot : o ≠ t)
    (hself : ∀ n o', (s.mutex n).owner = some o' → o' ∉ (s.mutex n).suspendThread) :
    Covered (s.blocked t o m time) ↔ ∀ n o', (s.mutex n).owner = some o' →
      o ∈ (s.mutex n).suspendThread → s.prio o' ≤ s.prio t := by
  simp only [Covered, blocked_owner, mem_blocked, blocked_prio]
  constructor
  · intro h' n o' ho' hw
    have hne : o' ≠ o := by
      rintro rfl
      exact hself n o' ho' hw
    have hle := h' n o' ho' o (Or.inr hw)
    rw [Function.update_of_ne hne, Function.update_self] at hle
    omega
  · intro hchain n o' ho' w hw
    rcases hw with ⟨rfl, rfl⟩ | hw
    · -- the new waiter
      obtain rfl : o' = o := Option.some.inj (ho'.symm.trans ho)
      rw [Function.update_self, Function.update_of_ne hot.symm]
      omega
    · have hold := h n o' ho' w hw
      by_cases hwo : w = o
      · -- the raised thread waits itself
        subst hwo
        have hne : o' ≠ w := by
          rintro rfl
          exact hself n o' ho' hw
        have hle := hchain n o' ho' hw
        rw [Function.update_of_ne hne, Function.update_self]
        omega
      · rw [Function.update_of_ne hwo]
        by_cases ho'o : o' = o
        · subst ho'o
          rw [Function.update_self]
          omega
        · rw [Function.update_of_ne ho'o]
          exact hold

omit [DecidableEq M] in
/-- Giving the thread `t`, which does not wait, the priority `p`: the waiters of the
mutexes that `t` owns are in question. -/
theorem covered_update_iff {s : State T M} (h : Covered s) {t : T} {p : ℕ} {n : M} {o w : T}
    (ho : (s.mutex n).owner = some o) (hw : w ∈ (s.mutex n).suspendThread) (hwt : w ≠ t) :
    Function.update s.prio t p o ≤ Function.update s.prio t p w ↔ (o = t → p ≤ s.prio w) := by
  rw [Function.update_of_ne hwt]
  by_cases hot : o = t
  · rw [hot, Function.update_self]
    exact ⟨fun hle _ => hle, fun hle => hle rfl⟩
  · rw [Function.update_of_ne hot]
    exact ⟨fun _ heq => absurd heq hot, fun _ => h n o ho w hw⟩

theorem covered_freed_iff {s : State T M} (h : Covered s) {t : T} {m : M}
    (hidle : ∀ n, t ∉ (s.mutex n).suspendThread) :
    Covered (s.freed t m) ↔ ∀ n, n ≠ m → (s.mutex n).owner = some t →
      ∀ w ∈ (s.mutex n).suspendThread, (s.mutex m).originalPriority ≤ s.prio w := by
  simp only [Covered, freed_mutex, freed_prio]
  have hne : ∀ {n w}, w ∈ (s.mutex n).suspendThread → w ≠ t := by
    rintro n w hw rfl
    exact hidle n hw
  constructor
  · intro h' n hn ho w hw
    have hle := h' n t (by rw [Function.update_of_ne hn]; exact ho) w
      (by rw [Function.update_of_ne hn]; exact hw)
    exact (covered_update_iff h ho hw (hne hw)).mp hle rfl
  · intro hkeep n o ho w hw
    by_cases hn : n = m
    · rw [hn, Function.update_self] at ho
      cases ho
    · rw [Function.update_of_ne hn] at ho hw
      refine (covered_update_iff h ho hw (hne hw)).mpr ?_
      rintro rfl
      exact hkeep n hn ho w hw

theorem covered_handed_iff {s : State T M} (h : Covered s) {t w : T} {m : M} {rest : List T}
    (hidle : ∀ n, t ∉ (s.mutex n).suspendThread) (hw : (s.mutex m).suspendThread = w :: rest) :
    Covered (s.handed t w m rest) ↔ (∀ n, n ≠ m → (s.mutex n).owner = some t →
      ∀ v ∈ (s.mutex n).suspendThread, (s.mutex m).originalPriority ≤ s.prio v) ∧
      ∀ v ∈ rest, s.prio w ≤ s.prio v := by
  obtain ⟨p, hmx⟩ := handed_mutex s t w m rest
  simp only [Covered, hmx, handed_prio]
  have hne : ∀ {n v}, v ∈ (s.mutex n).suspendThread → v ≠ t := by
    rintro n v hv rfl
    exact hidle n hv
  have hfront : w ≠ t := hne (n := m) (by rw [hw]; exact List.mem_cons_self)
  have hrest : ∀ v ∈ rest, v ≠ t :=
    fun v hv => hne (n := m) (by rw [hw]; exact List.mem_cons_of_mem _ hv)
  constructor
  · intro h'
    refine ⟨fun n hn ho v hv => ?_, fun v hv => ?_⟩
    · have hle := h' n t (by rw [Function.update_of_ne hn]; exact ho) v
        (by rw [Function.update_of_ne hn]; exact hv)
      exact (covered_update_iff h ho hv (hne hv)).mp hle rfl
    · have hle := h' m w (by rw [Function.update_self]; rfl) v
        (by rw [Function.update_self]; exact hv)
      rwa [Function.update_of_ne hfront, Function.update_of_ne (hrest v hv)] at hle
  · rintro ⟨hkeep, hfirst⟩ n o ho v hv
    by_cases hn : n = m
    · rw [hn, Function.update_self] at ho hv
      cases ho
      rw [Function.update_of_ne hfront, Function.update_of_ne (hrest v hv)]
      exact hfirst v hv
    · rw [Function.update_of_ne hn] at ho hv
      refine (covered_update_iff h ho hv (hne hv)).mpr ?_
      rintro rfl
      exact hkeep n hn ho v hv

theorem effect_covered_iff {s s' : Sys T M} {a : Act T M} (hinv : Inv s) (h : Covered s.state)
    (e : Effect s a s') : Covered s'.state ↔ BoostCovers s a := by
  have hself : ∀ n o, (s.state.mutex n).owner = some o → o ∉ (s.state.mutex n).suspendThread :=
    fun n o ho => ((hinv.mutexOk n).owned o ho).2
  have hidle : ∀ {t}, s.hist.pc t = .idle → ∀ n, t ∉ (s.state.mutex n).suspendThread :=
    fun ht => hinv.not_mem (by rw [ht]; decide)
  cases e with
  | @recurse t m time hpc ho =>
    refine iff_of_true ?_ fun o ho' hot => absurd (Option.some.inj (ho'.symm.trans ho)) hot
    have hlist := setMutex_keeps RtMutex.suspendThread (s.state.clear t) m (s.state.mutex m).again rfl
    exact h.mono (setMutex_keeps RtMutex.owner (s.state.clear t) m (s.state.mutex m).again rfl)
      (fun n w hw => hlist n ▸ hw) (clear_prio ..)
  | @acquire t m time hpc ho hv =>
    have hnone := (hinv.mutexOk m).owner_eq_none hv
    refine iff_of_true (fun n o ho' w hw => ?_) fun o ho' => by rw [hnone] at ho'; cases ho'
    by_cases hn : n = m
    · subst hn
      simp [RtMutex.acquire, ((hinv.mutexOk n).unowned hnone).2] at hw
    · simp only [setMutex_of_ne _ hn, clear_mutex] at ho' hw
      rw [setMutex_prio, clear_prio]
      exact h n o ho' w hw
  | @refuse t m hpc ho hv =>
    refine iff_of_true ?_ fun o _ _ htime => absurd rfl htime
    exact h.mono (fun _ => rfl) (fun _ _ hw => hw)
      ((setError_prio ..).trans (clear_prio ..))
  | @block t m time o hpc hot ho hv htime =>
    refine (covered_blocked_iff h time ho hot hself).trans ⟨fun hc o' ho' _ _ => ?_, fun hc => ?_⟩
    · obtain rfl : o' = o := Option.some.inj (ho'.symm.trans ho)
      exact hc
    · exact hc o ho hot htime
  | @finish t hpc => exact iff_of_true h trivial
  | @deny t m hpc ho =>
    refine iff_of_true ?_ fun ho' => absurd ho' ho
    exact h.mono (fun _ => rfl) (fun _ _ hw => hw) (setError_prio ..)
  | @unnest t m hpc ho hh =>
    refine iff_of_true ?_ fun _ hh' => absurd hh' hh
    have hlist := setMutex_keeps RtMutex.suspendThread s.state m (s.state.mutex m).unnest rfl
    exact h.mono (setMutex_keeps RtMutex.owner s.state m (s.state.mutex m).unnest rfl)
      (fun n w hw => hlist n ▸ hw) rfl
  | @free t m hpc ho hh hw =>
    refine (covered_freed_iff h (hidle hpc)).trans ⟨fun hc _ _ => ⟨hc, ?_⟩, fun hc => (hc ho hh).1⟩
    intro w rest hw'
    rw [hw] at hw'
    cases hw'
  | @hand t m w rest hpc ho hh hw =>
    refine (covered_handed_iff h (hidle hpc) hw).trans
      ⟨fun hc _ _ => ⟨hc.1, fun w' rest' hw' => ?_⟩, fun hc => ?_⟩
    · rw [hw] at hw'
      cases hw'
      exact hc.2
    · exact ⟨(hc ho hh).1, (hc ho hh).2 w rest hw⟩
  | @timeout t hpc =>
    exact iff_of_true (h.mono (fun _ => rfl) (fun _ _ hw => List.mem_of_mem_erase hw)
      (rtThreadTimeout_prio ..)) trivial

theorem step_covered_iff {s s' : Sys T M} {a : Act T M} (hinv : Inv s) (h : Covered s.state)
    (hs : step s a = some s') : Covered s'.state ↔ BoostCovers s a :=
  effect_covered_iff hinv h (step_effect hinv.quiet hs)

/-- A run keeps every owner at least as urgent as its waiters exactly if each of its
steps satisfies `BoostCovers`. -/
theorem inheritance_covers_iff (flag : M → IpcFlag) (priority : T → ℕ) (acts : List (Act T M)) :
    AllStates step (fun s => Covered s.state) (boot flag priority) acts ↔
      AllSteps step BoostCovers (boot flag priority) acts :=
  allStates_iff_allSteps Inv (fun s => Covered s.state) BoostCovers (fun _ _ _ => step_inv)
    (fun _ _ _ => step_covered_iff) acts (start_inv _ _) (boot_covered flag priority)

/-- Threads 1 and 0 wait for a FIFO mutex of thread 2, which is handed to thread 1 while the
more urgent thread 0 goes on waiting. And with two mutexes: thread 1 waits for one of thread
2, and is then raised by thread 0, which waits for the other. -/
theorem inheritance_missed :
    (∃ s : Sys ℕ ℕ, exec step (boot (fun _ => .fifo) fun t => 5 + 5 * t)
        [.take 2 0 (-1), .take 1 0 (-1), .take 0 0 (-1), .release 2 0] = some s ∧ ¬Covered s.state) ∧
    (∃ s : Sys ℕ ℕ, exec step (boot (fun _ => .prio) fun t => 5 + 5 * t)
        [.take 2 1 (-1), .take 1 0 (-1), .take 1 1 (-1), .take 0 0 (-1)] = some s ∧
      ¬Covered s.state) := by
  refine ⟨⟨_, rfl, fun h => ?_⟩, ⟨_, rfl, fun h => ?_⟩⟩
  · exact absurd (h 0 1 rfl 0 (by decide)) (by decide)
  · exact absurd (h 1 2 rfl 1 (by decide)) (by decide)

/-! ### Priorities are restored -/

/-- The last release by a thread that owns no other mutex is of a mutex that it took at
its initial priority. -/
def RestoresInit (s : Sys T M) : Act T M → Prop
  | .release t m => (s.state.mutex m).owner = some t → dec 8 (s.state.mutex m).hold = 0 →
      (∀ n, n ≠ m → (s.state.mutex n).owner ≠ some t) →
      (s.state.mutex m).originalPriority = (s.state.thread t).initPriority
  | _ => True

theorem restored_release_iff {s s' : State T M} (h : Restored s) {t : T} {m : M} {x : RtMutex T}
    (ho : (s.mutex m).owner = some t) (hmx : s'.mutex = Function.update s.mutex m x)
    (hx : x.owner ≠ some t) (hprio : s'.prio = Function.update s.prio t (s.mutex m).originalPriority)
    (hinit : ∀ u, (s'.thread u).initPriority = (s.thread u).initPriority) :
    Restored s' ↔ ((∀ n, n ≠ m → (s.mutex n).owner ≠ some t) →
      (s.mutex m).originalPriority = (s.thread t).initPriority) := by
  constructor
  · intro h' hnone
    have heq := h' t fun n => ?_
    · rwa [hprio, Function.update_self, hinit] at heq
    · by_cases hn : n = m
      · rw [hmx, hn, Function.update_self]
        exact hx
      · rw [hmx, Function.update_of_ne hn]
        exact hnone n hn
  · intro hrestore u hu
    have hothers : ∀ n, n ≠ m → (s.mutex n).owner ≠ some u := fun n hn => by
      simpa only [hmx, Function.update_of_ne hn] using hu n
    rw [hprio, hinit]
    by_cases hut : u = t
    · subst hut
      rw [Function.update_self]
      exact hrestore hothers
    · rw [Function.update_of_ne hut]
      refine h u fun n => ?_
      by_cases hn : n = m
      · rw [hn, ho]
        exact fun heq => hut (Option.some.inj heq).symm
      · exact hothers n hn

theorem effect_initPriority {s s' : Sys T M} {a : Act T M} (e : Effect s a s') (u : T) :
    (s'.state.thread u).initPriority = (s.state.thread u).initPriority := by
  have hclear : ∀ t, ((s.state.clear t).thread u).initPriority = (s.state.thread u).initPriority :=
    fun t => setThread_keeps Thread.initPriority s.state t (fun th => { th with error := .eok })
      (fun _ => rfl) u
  cases e with
  | @recurse t m time hpc ho => exact hclear t
  | @acquire t m time hpc ho hv => exact hclear t
  | @refuse t m hpc ho hv =>
    exact (setThread_keeps Thread.initPriority _ t (fun th => { th with error := .etimeout })
      (fun _ => rfl) u).trans (hclear t)
  | @block t m time o hpc hot ho hv htime =>
    refine (setThread_keeps Thread.initPriority _ t (fun th => th.suspend time)
      (fun _ => rfl) u).trans ?_
    rw [setMutex_thread, inherit_keeps Thread.initPriority fun _ _ => rfl]
    exact hclear t
  | @deny t m hpc ho =>
    exact setThread_keeps Thread.initPriority s.state t (fun th => { th with error := .error })
      (fun _ => rfl) u
  | @free t m hpc ho hh hw => exact restore_keeps Thread.initPriority (fun _ _ => rfl) s.state t u _
  | @hand t m w rest hpc ho hh hw =>
    refine (setThread_keeps Thread.initPriority _ w Thread.resume (fun _ => rfl) u).trans ?_
    exact restore_keeps Thread.initPriority (fun _ _ => rfl) s.state t u _
  | @timeout t hpc =>
    exact setThread_keeps Thread.initPriority _ t Thread.timeout (fun _ => rfl) u
  | finish => rfl
  | unnest => rfl

theorem effect_restored_iff {s s' : Sys T M} {a : Act T M} (hinv : Inv s) (h : Restored s.state)
    (e : Effect s a s') : Restored s'.state ↔ RestoresInit s a := by
  have hinit := effect_initPriority e
  cases e with
  | @recurse t m time hpc ho =>
    have hown := setMutex_keeps RtMutex.owner (s.state.clear t) m (s.state.mutex m).again rfl
    exact iff_of_true (h.mono (fun u hu n => hown n ▸ hu n) (fun u _ => congrFun (clear_prio ..) u)
      hinit) trivial
  | @acquire t m time hpc ho hv =>
    refine iff_of_true (h.mono (fun u hu n => ?_) (fun u _ => congrFun (clear_prio ..) u) hinit)
      trivial
    by_cases hn : n = m
    · rw [hn, (hinv.mutexOk m).owner_eq_none hv]
      nofun
    · simpa [hn] using hu n
  | @refuse t m hpc ho hv =>
    exact iff_of_true (h.mono (fun _ hu => hu)
      (fun u _ => congrFun ((setError_prio ..).trans (clear_prio ..)) u) hinit) trivial
  | @block t m time o hpc hot ho hv htime =>
    -- only the owner of `m` is raised, and it still owns `m`
    refine iff_of_true (h.mono (fun u hu n => ?_) (fun u hu => ?_) hinit) trivial
    · have hown := hu n
      rwa [blocked_owner] at hown
    · have huo : u ≠ o := by
        rintro rfl
        have hown := hu m
        rw [blocked_owner] at hown
        exact hown ho
      exact (congrFun (blocked_prio ..) u).trans (Function.update_of_ne huo _ _)
  | @finish t hpc => exact iff_of_true h trivial
  | @deny t m hpc ho =>
    exact iff_of_true (h.mono (fun _ hu => hu) (fun u _ => congrFun (setError_prio ..) u) hinit)
      fun ho' => absurd ho' ho
  | @unnest t m hpc ho hh =>
    have hown := setMutex_keeps RtMutex.owner s.state m (s.state.mutex m).unnest rfl
    exact iff_of_true (h.mono (fun u hu n => hown n ▸ hu n) (fun _ _ => rfl) hinit)
      fun _ hh' => absurd hh' hh
  | @free t m hpc ho hh hw =>
    exact (restored_release_iff h ho (freed_mutex ..) nofun (freed_prio ..) hinit).trans
      ⟨fun hc _ _ => hc, fun hc => hc ho hh⟩
  | @hand t m w rest hpc ho hh hw =>
    obtain ⟨p, hmx⟩ := handed_mutex s.state t w m rest
    have hwt : w ≠ t := by
      rintro rfl
      have hmem := ((hinv.mutexOk m).owned w ho).2
      rw [hw] at hmem
      exact hmem List.mem_cons_self
    exact (restored_release_iff h ho hmx (fun heq => hwt (Option.some.inj heq)) (handed_prio ..)
      hinit).trans ⟨fun hc _ _ => hc, fun hc => hc ho hh⟩
  | @timeout t hpc =>
    exact iff_of_true (h.mono (fun _ hu => hu) (fun u _ => congrFun (rtThreadTimeout_prio ..) u)
      hinit) trivial

theorem step_restored_iff {s s' : Sys T M} {a : Act T M} (hinv : Inv s) (h : Restored s.state)
    (hs : step s a = some s') : Restored s'.state ↔ RestoresInit s a :=
  effect_restored_iff hinv h (step_effect hinv.quiet hs)

/-- In every state of a run the threads without a mutex have their initial priority
exactly if each step of the run satisfies `RestoresInit`. -/
theorem priority_restored_iff (flag : M → IpcFlag) (priority : T → ℕ) (acts : List (Act T M)) :
    AllStates step (fun s => Restored s.state) (boot flag priority) acts ↔
      AllSteps step RestoresInit (boot flag priority) acts :=
  allStates_iff_allSteps Inv (fun s => Restored s.state) RestoresInit (fun _ _ _ => step_inv)
    (fun _ _ _ => step_restored_iff) acts (start_inv _ _) (boot_restored flag priority)

/-- Thread 1 takes mutex 0, is raised by thread 0, takes mutex 1 at the raised priority,
and releases mutex 0 first: the release of mutex 1 raises it again, for good. -/
theorem priority_kept_raised :
    ∃ s : Sys ℕ ℕ, exec step (boot (fun _ => .prio) fun t => 5 + 15 * t)
        [.take 1 0 (-1), .take 0 0 (-1), .take 1 1 (-1), .release 1 0, .release 1 1] = some s ∧
      (∀ m, (s.state.mutex m).owner ≠ some 1) ∧ s.state.prio 1 = 5 ∧
      (s.state.thread 1).initPriority = 20 := by
  refine ⟨_, rfl, fun m => ?_, by decide, by decide⟩
  rcases m with _ | _ | m
  · decide
  · decide
  · nofun

end RtThread.Ipc.Mutex
