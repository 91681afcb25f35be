import RtThread.Ipc.Mutex

/-!
# Runs of threads on mutexes

The step function of the mutex system, the list of its effects, and the invariant
that every run keeps: who is in which suspend list, and how `owner`, `value` and the
suspend list of a mutex go together. The number of nested takes plays no part in it.
-/

namespace RtThread.Ipc.Mutex

open RtThread.Lib.Word RtThread.Lib.Transition RtThread.Ipc.Base RtThread.Ipc.Calls

variable {T M : Type*} [DecidableEq T] [DecidableEq M]

/-- The system: the kernel data, and as history the take calls with the arguments of
the suspended ones, and how often each thread was granted and has released each mutex. -/
structure Sys (T M : Type*) where
  state : State T M
  hist : History T
  args : T → Option (M × ℤ)
  taken : T → M → ℕ
  given : T → M → ℕ

def start (flag : M → IpcFlag) (thread : T → Thread) : Sys T M :=
  ⟨⟨fun m => rtMutexInit (flag m), thread⟩, empty, fun _ => none, fun _ _ => 0, fun _ _ => 0⟩

def bump (f : T → M → ℕ) (t : T) (m : M) : T → M → ℕ :=
  fun u n => if u = t ∧ n = m then f u n + 1 else f u n

def Sys.recordTake (s : Sys T M) (t : T) (m : M) (time : ℤ) (st : State T M) : Taken → Sys T M
  | .granted => { s with state := st, hist := s.hist.pass, taken := bump s.taken t m }
  | .refused e => { s with state := st, hist := s.hist.refuse e }
  | .suspended =>
    { s with state := st, hist := s.hist.block t, args := Function.update s.args t (some (m, time)) }

/-- A section of a call that was interrupted by a signal and tries again. -/
def Sys.recordAgain (s : Sys T M) (t : T) (m : M) (st : State T M) : Taken → Sys T M
  | .granted => { s with state := st, hist := (s.hist.grant t).finish t .eok,
                         taken := bump s.taken t m }
  | .refused e => { s with state := st, hist := s.hist.finish t e }
  | .suspended => { s with state := st, hist := s.hist.resuspend t }

def Sys.recordRelease (s : Sys T M) (t : T) (m : M) (st : State T M) : Released T → Sys T M
  | .refused => { s with state := st }
  | .nested | .freed => { s with state := st, given := bump s.given t m }
  | .handed w => { s with state := st, hist := s.hist.grant w, given := bump s.given t m,
                          taken := bump s.taken w m }

inductive Act (T M : Type*) where
  | take (t : T) (m : M) (time : ℤ)
  | takeReturn (t : T)
  | release (t : T) (m : M)
  | timeout (t : T)

/-- One section. After `rt_schedule` a take call returns `thread->error`, or goes back to
`__again` when a signal has interrupted it (`ipc.c:754-767`). -/
def step (s : Sys T M) : Act T M → Option (Sys T M)
  | .take t m time =>
    if s.hist.pc t = .idle then
      (rtMutexTake s.state t m time).map fun r => s.recordTake t m time r.1 r.2
    else none
  | .takeReturn t =>
    if s.hist.pc t = .resumed then
      if (s.state.thread t).error = .eintr then
        (s.args t).bind fun a =>
          (rtMutexTakeAgain s.state t a.1 a.2).map fun r => s.recordAgain t a.1 r.1 r.2
      else some { s with hist := s.hist.finish t (s.state.thread t).error }
    else none
  | .release t m =>
    if s.hist.pc t = .idle then
      some (s.recordRelease t m (rtMutexRelease s.state t m).1 (rtMutexRelease s.state t m).2)
    else none
  | .timeout t =>
    if s.hist.pc t = .suspended ∧ (s.state.thread t).threadTimer = true then
      some { s with state := rtThreadTimeout s.state t, hist := s.hist.expire t }
    else none

/-! ### What a step can do -/

def State.clear (s : State T M) (t : T) : State T M :=
  s.setThread t fun th => { th with error := .eok }

omit [DecidableEq M] in
@[simp] theorem clear_mutex (s : State T M) (t : T) : (s.clear t).mutex = s.mutex := rfl

omit [DecidableEq M] in
@[simp] theorem clear_prio (s : State T M) (t : T) : (s.clear t).prio = s.prio :=
  setError_prio s t .eok

/-! A mutex after one more take by its owner (`again`), after a take when it was free
(`acquire`), with one more waiter (`enqueue`), and after a release: still held (`unnest`), handed
to the first waiter (`hand`), or free. -/

def RtMutex.again (mx : RtMutex T) : RtMutex T := { mx with hold := inc 8 mx.hold }

def RtMutex.acquire (mx : RtMutex T) (t : T) (p : ℕ) : RtMutex T :=
  { mx with value := dec 16 mx.value, owner := some t, originalPriority := p, hold := inc 8 mx.hold }

def RtMutex.enqueue (mx : RtMutex T) (prio : T → ℕ) (t : T) : RtMutex T :=
  { mx with suspendThread := rtIpcListSuspend mx.flag prio mx.suspendThread t }

def RtMutex.unnest (mx : RtMutex T) : RtMutex T := { mx with hold := dec 8 mx.hold }

def RtMutex.hand (mx : RtMutex T) (w : T) (p : ℕ) (rest : List T) : RtMutex T :=
  { mx with owner := some w, originalPriority := p, hold := inc 8 (dec 8 mx.hold),
            suspendThread := rest }

def RtMutex.free (mx : RtMutex T) : RtMutex T :=
  { mx with value := inc 16 mx.value, owner := none, originalPriority := 0xff, hold := dec 8 mx.hold }

/-- Everything a step can do, as long as no call was interrupted by a signal. -/
inductive Effect (s : Sys T M) : Act T M → Sys T M → Prop where
  | recurse {t m time} (hpc : s.hist.pc t = .idle) (ho : (s.state.mutex m).owner = some t) :
      Effect s (.take t m time)
        { s with state := (s.state.clear t).setMutex m (s.state.mutex m).again,
                 hist := s.hist.pass, taken := bump s.taken t m }
  | acquire {t m time} (hpc : s.hist.pc t = .idle) (ho : (s.state.mutex m).owner ≠ some t)
      (hv : 0 < (s.state.mutex m).value) :
      Effect s (.take t m time)
        { s with state := (s.state.clear t).setMutex m
                   ((s.state.mutex m).acquire t (s.state.prio t)),
                 hist := s.hist.pass, taken := bump s.taken t m }
  | refuse {t m} (hpc : s.hist.pc t = .idle) (ho : (s.state.mutex m).owner ≠ some t)
      (hv : (s.state.mutex m).value = 0) :
      Effect s (.take t m 0)
        { s with state := (s.state.clear t).setThread t fun th => { th with error := .etimeout },
                 hist := s.hist.refuse .etimeout }
  | block {t m time o} (hpc : s.hist.pc t = .idle) (hot : o ≠ t)
      (ho : (s.state.mutex m).owner = some o) (hv : (s.state.mutex m).value = 0) (htime : time ≠ 0) :
      Effect s (.take t m time)
        { s with state := ((inherit (s.state.clear t) o t).setMutex m
                   ((s.state.mutex m).enqueue (inherit (s.state.clear t) o t).prio t)).setThread t
                   fun th => th.suspend time,
                 hist := s.hist.block t, args := Function.update s.args t (some (m, time)) }
  | finish {t} (hpc : s.hist.pc t = .resumed) :
      Effect s (.takeReturn t) { s with hist := s.hist.finish t (s.state.thread t).error }
  | deny {t m} (hpc : s.hist.pc t = .idle) (ho : (s.state.mutex m).owner ≠ some t) :
      Effect s (.release t m)
        { s with state := s.state.setThread t fun th => { th with error := .error } }
  | unnest {t m} (hpc : s.hist.pc t = .idle) (ho : (s.state.mutex m).owner = some t)
      (hh : dec 8 (s.state.mutex m).hold ≠ 0) :
      Effect s (.release t m)
        { s with state := s.state.setMutex m (s.state.mutex m).unnest, given := bump s.given t m }
  | free {t m} (hpc : s.hist.pc t = .idle) (ho : (s.state.mutex m).owner = some t)
      (hh : dec 8 (s.state.mutex m).hold = 0) (hw : (s.state.mutex m).suspendThread = []) :
      Effect s (.release t m)
        { s with state := (restore s.state t (s.state.mutex m).originalPriority).setMutex m
                   (s.state.mutex m).free,
                 given := bump s.given t m }
  | hand {t m w rest} (hpc : s.hist.pc t = .idle) (ho : (s.state.mutex m).owner = some t)
      (hh : dec 8 (s.state.mutex m).hold = 0) (hw : (s.state.mutex m).suspendThread = w :: rest) :
      Effect s (.release t m)
        { s with state := ((restore s.state t (s.state.mutex m).originalPriority).setMutex m
                   ((s.state.mutex m).hand w
                     ((restore s.state t (s.state.mutex m).originalPriority).prio w) rest)).setThread
                   w Thread.resume,
                 hist := s.hist.grant w, given := bump s.given t m, taken := bump s.taken w m }
  | timeout {t} (hpc : s.hist.pc t = .suspended) :
      Effect s (.timeout t) { s with state := rtThreadTimeout s.state t, hist := s.hist.expire t }

theorem take_effect {s s' : Sys T M} {t : T} {m : M} {time : ℤ}
    (h : step s (.take t m time) = some s') : Effect s (.take t m time) s' := by
  simp only [step, Option.ite_none_right_eq_some, Option.map_eq_some_iff] at h
  obtain ⟨hpc, ⟨st, out⟩, htake, rfl⟩ := h
  simp only [rtMutexTake] at htake
  split at htake
  · rename_i ho
    cases htake
    exact Effect.recurse hpc ho
  · rename_i ho
    simp only [rtMutexTakeAgain] at htake
    split at htake
    · rename_i hv
      cases htake
      have hp := clear_prio s.state t
      rw [State.clear] at hp
      rw [hp]
      exact Effect.acquire hpc ho hv
    · rename_i hv
      have hv0 : (s.state.mutex m).value = 0 := Nat.eq_zero_of_not_pos hv
      split at htake
      · rename_i htime
        cases htake
        subst htime
        exact Effect.refuse hpc ho hv0
      · rename_i htime
        split at htake
        · cases htake
        · rename_i o hown
          cases htake
          have hot : o ≠ t := fun hot => ho (hown.trans (congrArg some hot))
          exact Effect.block hpc hot hown hv0 htime

theorem release_effect {s s' : Sys T M} {t : T} {m : M}
    (h : step s (.release t m) = some s') : Effect s (.release t m) s' := by
  simp only [step, Option.ite_none_right_eq_some, Option.some.injEq] at h
  obtain ⟨hpc, rfl⟩ := h
  generalize hr : rtMutexRelease s.state t m = r
  simp only [rtMutexRelease] at hr
  split at hr
  · rename_i ho
    subst hr
    exact Effect.deny hpc ho
  · rename_i ho
    have ho' := not_not.mp ho
    split at hr
    · rename_i hh
      subst hr
      exact Effect.unnest hpc ho' hh
    · rename_i hh
      have hh' := not_not.mp hh
      split at hr
      · rename_i w rest hw
        subst hr
        exact Effect.hand hpc ho' hh' hw
      · rename_i hw
        subst hr
        exact Effect.free hpc ho' hh' hw

theorem step_effect {s s' : Sys T M} {a : Act T M}
    (hsig : ∀ t, s.hist.pc t = .resumed → (s.state.thread t).error ≠ .eintr)
    (h : step s a = some s') : Effect s a s' := by
  cases a with
  | take t m time => exact take_effect h
  | takeReturn t =>
    simp only [step, Option.ite_none_right_eq_some] at h
    obtain ⟨hpc, h⟩ := h
    rw [if_neg (hsig t hpc)] at h
    cases h
    exact Effect.finish hpc
  | release t m => exact release_effect h
  | timeout t =>
    simp only [step, Option.ite_none_right_eq_some, Option.some.injEq] at h
    obtain ⟨⟨hpc, -⟩, rfl⟩ := h
    exact Effect.timeout hpc

/-! ### The invariant -/

/-- What every mutex of a run satisfies: an unowned mutex is available and nobody waits
for it, an owned one is not available and its owner does not wait for it. -/
structure MutexOk (mx : RtMutex T) : Prop where
  hold_lt : mx.hold < 2 ^ 8
  nodup : mx.suspendThread.Nodup
  unowned : mx.owner = none → mx.value = 1 ∧ mx.suspendThread = []
  owned : ∀ o, mx.owner = some o → mx.value = 0 ∧ o ∉ mx.suspendThread

omit [DecidableEq T] in
theorem rtMutexInit_ok (flag : IpcFlag) : MutexOk (rtMutexInit flag : RtMutex T) :=
  ⟨Nat.two_pow_pos 8, List.nodup_nil, fun _ => ⟨rfl, rfl⟩, nofun⟩

omit [DecidableEq T] in
theorem MutexOk.owner_eq_none {mx : RtMutex T} (h : MutexOk mx) (hv : 0 < mx.value) :
    mx.owner = none := by
  cases ho : mx.owner with
  | none => rfl
  | some o =>
    have := (h.owned o ho).1
    omega

omit [DecidableEq T] in
theorem MutexOk.again {mx : RtMutex T} (h : MutexOk mx) : MutexOk mx.again :=
  ⟨inc_lt 8 mx.hold, h.nodup, h.unowned, h.owned⟩

omit [DecidableEq T] in
theorem MutexOk.acquire {mx : RtMutex T} (h : MutexOk mx) (hv : 0 < mx.value) (t : T) (p : ℕ) :
    MutexOk (mx.acquire t p) := by
  have hfree := h.unowned (h.owner_eq_none hv)
  refine ⟨inc_lt 8 mx.hold, h.nodup, nofun, fun o _ => ⟨?_, ?_⟩⟩
  · rw [RtMutex.acquire, hfree.1]
    rfl
  · simp [RtMutex.acquire, hfree.2]

omit [DecidableEq T] in
theorem MutexOk.enqueue {mx : RtMutex T} (h : MutexOk mx) {t o : T} (ho : mx.owner = some o)
    (hot : o ≠ t) (ht : t ∉ mx.suspendThread) (prio : T → ℕ) : MutexOk (mx.enqueue prio t) := by
  refine ⟨h.hold_lt, nodup_rtIpcListSuspend.mpr ⟨ht, h.nodup⟩, fun hn => ?_, fun o' ho' => ?_⟩
  · rw [RtMutex.enqueue, ho] at hn
    cases hn
  · rw [RtMutex.enqueue, ho] at ho'
    cases ho'
    refine ⟨(h.owned o ho).1, fun hmem => ?_⟩
    rcases mem_rtIpcListSuspend.mp hmem with hmem | hmem
    · exact hot hmem
    · exact (h.owned o ho).2 hmem

omit [DecidableEq T] in
theorem MutexOk.unnest {mx : RtMutex T} (h : MutexOk mx) : MutexOk mx.unnest :=
  ⟨dec_lt h.hold_lt, h.nodup, h.unowned, h.owned⟩

omit [DecidableEq T] in
theorem MutexOk.hand {mx : RtMutex T} (h : MutexOk mx) {t w : T} {rest : List T}
    (ho : mx.owner = some t) (hw : mx.suspendThread = w :: rest) (p : ℕ) :
    MutexOk (mx.hand w p rest) := by
  have hnd := h.nodup
  rw [hw, List.nodup_cons] at hnd
  refine ⟨inc_lt 8 _, hnd.2, nofun, fun o hown => ?_⟩
  cases hown
  exact ⟨(h.owned t ho).1, hnd.1⟩

omit [DecidableEq T] in
theorem MutexOk.free {mx : RtMutex T} (h : MutexOk mx) {t : T} (ho : mx.owner = some t)
    (hw : mx.suspendThread = []) : MutexOk mx.free := by
  refine ⟨dec_lt h.hold_lt, h.nodup, fun _ => ⟨?_, hw⟩, nofun⟩
  rw [RtMutex.free, (h.owned t ho).1]
  rfl

theorem MutexOk.erase {mx : RtMutex T} (h : MutexOk mx) (t : T) :
    MutexOk { mx with suspendThread := mx.suspendThread.erase t } := by
  refine ⟨h.hold_lt, h.nodup.erase t, fun hn => ?_, fun o ho => ?_⟩
  · obtain ⟨hv, hs⟩ := h.unowned hn
    exact ⟨hv, by simp [hs]⟩
  · exact ⟨(h.owned o ho).1, fun hmem => (h.owned o ho).2 (List.mem_of_mem_erase hmem)⟩

/-- What every run without signals keeps. -/
structure Inv (s : Sys T M) : Prop where
  calls : Ok s.hist fun t => (s.state.thread t).error
  mutexOk : ∀ m, MutexOk (s.state.mutex m)
  waiting : ∀ m, ∀ t ∈ (s.state.mutex m).suspendThread,
    s.hist.pc t = .suspended ∧ ∃ time, s.args t = some (m, time)
  listed : ∀ t, s.hist.pc t = .suspended → ∃ m, t ∈ (s.state.mutex m).suspendThread
  pending : ∀ t, s.hist.pc t = .suspended → (s.state.thread t).error = .eok
  quiet : ∀ t, s.hist.pc t = .resumed → (s.state.thread t).error ≠ .eintr

omit [DecidableEq T] [DecidableEq M] in
theorem start_inv (flag : M → IpcFlag) (thread : T → Thread) : Inv (start flag thread) :=
  ⟨empty_ok _, fun m => rtMutexInit_ok (flag m), fun m t ht => by simp [start, rtMutexInit] at ht,
    fun t ht => by simp [start, empty] at ht, fun t ht => by simp [start, empty] at ht,
    fun t ht => by simp [start, empty] at ht⟩

omit [DecidableEq T] [DecidableEq M] in
theorem Inv.not_mem {s : Sys T M} (h : Inv s) {t : T} (ht : s.hist.pc t ≠ .suspended) (m : M) :
    t ∉ (s.state.mutex m).suspendThread := fun hmem => ht (h.waiting m t hmem).1

omit [DecidableEq T] [DecidableEq M] in
theorem Inv.mem_unique {s : Sys T M} (h : Inv s) {t : T} {m n : M}
    (hm : t ∈ (s.state.mutex m).suspendThread) (hn : t ∈ (s.state.mutex n).suspendThread) : m = n := by
  obtain ⟨-, time, ha⟩ := h.waiting m t hm
  obtain ⟨-, time', hb⟩ := h.waiting n t hn
  rw [ha, Option.some.injEq, Prod.mk.injEq] at hb
  exact hb.1

omit [DecidableEq T] in
/-- A change of one mutex that keeps its suspend list, together with changes of threads
that keep every error field that is still to be read, keeps the invariant. -/
theorem Inv.frame {s : Sys T M} (h : Inv s) {st : State T M} {m : M} {x : RtMutex T}
    {hist : History T} {taken given : T → M → ℕ}
    (hst : st.mutex = Function.update s.state.mutex m x)
    (hx : MutexOk x) (hlist : x.suspendThread = (s.state.mutex m).suspendThread)
    (herr : ∀ t, s.hist.pc t ≠ .idle → (st.thread t).error = (s.state.thread t).error)
    (hpc : hist.pc = s.hist.pc) (hcalls : Ok hist fun t => (s.state.thread t).error) :
    Inv { s with state := st, hist := hist, taken := taken, given := given } := by
  have hsusp : ∀ n, (st.mutex n).suspendThread = (s.state.mutex n).suspendThread := by
    intro n
    by_cases hn : n = m
    · rw [hst, hn, Function.update_self, hlist]
    · rw [hst, Function.update_of_ne hn]
  refine ⟨hcalls.congr fun t ht => herr t ?_, fun n => ?_, fun n t ht => ?_, fun t ht => ?_,
    fun t ht => ?_, fun t ht => ?_⟩
  · rw [← hpc, ht]
    decide
  · by_cases hn : n = m
    · simpa only [hst, hn, Function.update_self] using hx
    · simpa only [hst, Function.update_of_ne hn] using h.mutexOk n
  · rw [hsusp] at ht
    rw [hpc]
    exact h.waiting n t ht
  · rw [hpc] at ht
    obtain ⟨n, hn⟩ := h.listed t ht
    exact ⟨n, by rw [hsusp]; exact hn⟩
  · rw [hpc] at ht
    exact (herr t (by rw [ht]; decide)).trans (h.pending t ht)
  · rw [hpc] at ht
    rw [herr t (by rw [ht]; decide)]
    exact h.quiet t ht

theorem Inv.block {s : Sys T M} (h : Inv s) {t o : T} {m : M} {time : ℤ}
    (hpc : s.hist.pc t = .idle) (hot : o ≠ t) (ho : (s.state.mutex m).owner = some o)
    {prio : T → ℕ} {st : State T M}
    (hmx : st.mutex = Function.update s.state.mutex m ((s.state.mutex m).enqueue prio t))
    (herr : ∀ u, u ≠ t → (st.thread u).error = (s.state.thread u).error)
    (hself : (st.thread t).error = .eok) :
    Inv { s with state := st, hist := s.hist.block t,
                 args := Function.update s.args t (some (m, time)) } := by
  have hnot := h.not_mem (t := t) (by rw [hpc]; decide)
  have hmem : ∀ n u, u ∈ (st.mutex n).suspendThread ↔
      (n = m ∧ u = t) ∨ u ∈ (s.state.mutex n).suspendThread := by
    intro n u
    rw [hmx]
    by_cases hn : n = m
    · rw [hn, Function.update_self, RtMutex.enqueue, mem_rtIpcListSuspend]
      simp
    · rw [Function.update_of_ne hn]
      simp [hn]
  have hsusp : ∀ u, u ≠ t → (s.hist.block t).pc u = s.hist.pc u :=
    fun u hu => Function.update_of_ne hu _ _
  have hblock : (s.hist.block t).pc t = .suspended := Function.update_self ..
  refine ⟨(h.calls.block t).congr fun u hu => ?_, fun n => ?_, fun n u hu => ?_, fun u hu => ?_,
    fun u hu => ?_, fun u hu => ?_⟩
  · refine herr u ?_
    rintro rfl
    rw [hblock] at hu
    cases hu
  · show MutexOk (st.mutex n)
    rw [hmx]
    by_cases hn : n = m
    · rw [hn, Function.update_self]
      exact (h.mutexOk m).enqueue ho hot (hnot m) prio
    · rw [Function.update_of_ne hn]
      exact h.mutexOk n
  · rcases (hmem n u).mp hu with ⟨rfl, rfl⟩ | hold
    · exact ⟨hblock, time, Function.update_self ..⟩
    · have hut : u ≠ t := by
        rintro rfl
        exact hnot n hold
      refine ⟨(hsusp u hut).trans (h.waiting n u hold).1, ?_⟩
      obtain ⟨time', ha⟩ := (h.waiting n u hold).2
      exact ⟨time', (Function.update_of_ne hut ..).trans ha⟩
  · by_cases hut : u = t
    · exact ⟨m, (hmem m u).mpr (Or.inl ⟨rfl, hut⟩)⟩
    · obtain ⟨n, hn⟩ := h.listed u ((hsusp u hut).symm.trans hu)
      exact ⟨n, (hmem n u).mpr (Or.inr hn)⟩
  · by_cases hut : u = t
    · rw [hut]
      exact hself
    · exact (herr u hut).trans (h.pending u ((hsusp u hut).symm.trans hu))
  · have hut : u ≠ t := by
      rintro rfl
      rw [hblock] at hu
      cases hu
    show (st.thread u).error ≠ .eintr
    rw [herr u hut]
    exact h.quiet u ((hsusp u hut).symm.trans hu)

omit [DecidableEq M] in
theorem Inv.wake {s : Sys T M} (h : Inv s) {w : T} {st : State T M} {hist : History T}
    {taken given : T → M → ℕ} (hpc : hist.pc = Function.update s.hist.pc w .resumed)
    (hcalls : Ok hist fun u => (st.thread u).error) (hmx : ∀ n, MutexOk (st.mutex n))
    (hmem : ∀ n u, u ∈ (st.mutex n).suspendThread ↔ u ≠ w ∧ u ∈ (s.state.mutex n).suspendThread)
    (herr : ∀ u, u ≠ w → (st.thread u).error = (s.state.thread u).error)
    (hself : (st.thread w).error ≠ .eintr) :
    Inv { s with state := st, hist := hist, taken := taken, given := given } := by
  have hother : ∀ u, u ≠ w → hist.pc u = s.hist.pc u :=
    fun u hu => by rw [hpc, Function.update_of_ne hu]
  have hw : hist.pc w = .resumed := by rw [hpc, Function.update_self]
  refine ⟨hcalls, hmx, fun n u hu => ?_, fun u hu => ?_, fun u hu => ?_, fun u hu => ?_⟩
  · obtain ⟨huw, hu⟩ := (hmem n u).mp hu
    exact ⟨(hother u huw).trans (h.waiting n u hu).1, (h.waiting n u hu).2⟩
  · have huw : u ≠ w := by
      rintro rfl
      rw [hw] at hu
      cases hu
    obtain ⟨n, hn⟩ := h.listed u ((hother u huw).symm.trans hu)
    exact ⟨n, (hmem n u).mpr ⟨huw, hn⟩⟩
  · have huw : u ≠ w := by
      rintro rfl
      rw [hw] at hu
      cases hu
    exact (herr u huw).trans (h.pending u ((hother u huw).symm.trans hu))
  · by_cases huw : u = w
    · rw [huw]
      exact hself
    · show (st.thread u).error ≠ .eintr
      rw [herr u huw]
      exact h.quiet u ((hother u huw).symm.trans hu)

omit [DecidableEq M] in
theorem Inv.finish {s : Sys T M} (h : Inv s) {t : T} (hpc : s.hist.pc t = .resumed) :
    Inv { s with hist := s.hist.finish t (s.state.thread t).error } := by
  have hpc' : ∀ u, (s.hist.finish t (s.state.thread t).error).pc u ≠ .idle →
      (s.hist.finish t (s.state.thread t).error).pc u = s.hist.pc u := by
    intro u hu
    by_cases hut : u = t
    · simp [History.finish, hut] at hu
    · exact Function.update_of_ne hut _ _
  refine ⟨h.calls.finish hpc, h.mutexOk, fun m u hu => ?_, fun u hu => ?_, fun u hu => ?_,
    fun u hu => ?_⟩
  · have hut : u ≠ t := by
      rintro rfl
      exact h.not_mem (by rw [hpc]; decide) m hu
    exact ⟨(Function.update_of_ne hut _ _).trans (h.waiting m u hu).1, (h.waiting m u hu).2⟩
  · exact h.listed u ((hpc' u (by rw [show _ = _ from hu]; decide)).symm.trans hu)
  · exact h.pending u ((hpc' u (by rw [show _ = _ from hu]; decide)).symm.trans hu)
  · exact h.quiet u ((hpc' u (by rw [show _ = _ from hu]; decide)).symm.trans hu)

omit [DecidableEq M] in
theorem clear_error (s : State T M) {t u : T} (hut : u ≠ t) :
    ((s.clear t).thread u).error = (s.thread u).error := by
  rw [State.clear, setThread_of_ne s hut]

theorem effect_inv {s s' : Sys T M} {a : Act T M} (h : Inv s) (e : Effect s a s') : Inv s' := by
  have hidle : ∀ {t u : T}, s.hist.pc t = .idle → s.hist.pc u ≠ .idle → u ≠ t :=
    fun ht hu hut => hu (hut ▸ ht)
  cases e with
  | @recurse t m time hpc ho =>
    exact h.frame rfl (h.mutexOk m).again rfl (fun u hu => clear_error _ (hidle hpc hu)) rfl
      h.calls.pass
  | @acquire t m time hpc ho hv =>
    exact h.frame rfl ((h.mutexOk m).acquire hv t _) rfl
      (fun u hu => clear_error _ (hidle hpc hu)) rfl h.calls.pass
  | @refuse t m hpc ho hv =>
    refine h.frame (Function.update_eq_self m _).symm (h.mutexOk m) rfl (fun u hu => ?_) rfl
      (h.calls.refuse (by decide))
    rw [setThread_of_ne _ (hidle hpc hu)]
    exact clear_error _ (hidle hpc hu)
  | @block t m time o hpc hot ho hv htime =>
    have hmx : (inherit (s.state.clear t) o t).mutex = s.state.mutex := inherit_mutex ..
    refine h.block hpc hot ho (congrArg (Function.update · m _) hmx) (fun u hut => ?_) ?_
    · rw [setThread_of_ne _ hut, setMutex_thread,
        inherit_keeps Thread.error (fun _ _ => rfl), clear_error _ hut]
    · rw [setThread_self, setMutex_thread]
      exact (inherit_keeps Thread.error (fun _ _ => rfl) _ _ _ _).trans (by simp [State.clear])
  | @finish t hpc => exact h.finish hpc
  | @deny t m hpc ho =>
    exact h.frame (Function.update_eq_self m _).symm (h.mutexOk m) rfl
      (fun u hu => by rw [setThread_of_ne _ (hidle hpc hu)]) rfl h.calls
  | @unnest t m hpc ho hh =>
    exact h.frame rfl (h.mutexOk m).unnest rfl (fun u _ => rfl) rfl h.calls
  | @free t m hpc ho hh hw =>
    refine h.frame ?_ ((h.mutexOk m).free ho hw) rfl (fun u _ => ?_) rfl h.calls
    · rw [State.setMutex, restore_mutex]
    · rw [setMutex_thread, restore_keeps Thread.error fun _ _ => rfl]
  | @hand t m w rest hpc ho hh hw =>
    have hmem : w ∈ (s.state.mutex m).suspendThread := by
      rw [hw]
      exact List.mem_cons_self
    have hsusp := (h.waiting m w hmem).1
    have hnd := (h.mutexOk m).nodup
    rw [hw, List.nodup_cons] at hnd
    have herr : ∀ u, ((((restore s.state t (s.state.mutex m).originalPriority).setMutex m
        ((s.state.mutex m).hand w ((restore s.state t (s.state.mutex m).originalPriority).prio w)
          rest)).setThread w Thread.resume).thread u).error = (s.state.thread u).error := by
      intro u
      rw [setThread_keeps Thread.error _ w Thread.resume (fun _ => rfl), setMutex_thread,
        restore_keeps Thread.error fun _ _ => rfl]
    refine h.wake rfl ((h.calls.grant hsusp (h.pending w hsusp)).congr fun u _ => herr u)
      (fun n => ?_) (fun n u => ?_) (fun u _ => herr u) ?_
    · by_cases hn : n = m
      · subst hn
        simpa using (h.mutexOk n).hand ho hw _
      · simpa [hn] using h.mutexOk n
    · by_cases hn : n = m
      · subst hn
        simp only [setThread_mutex, setMutex_self, RtMutex.hand, hw, List.mem_cons]
        constructor
        · intro hu
          have huw : u ≠ w := by
            rintro rfl
            exact hnd.1 hu
          exact ⟨huw, Or.inr hu⟩
        · exact fun hu => hu.2.resolve_left hu.1
      · simp only [setThread_mutex, setMutex_of_ne _ hn, restore_mutex]
        refine ⟨fun hu => ⟨?_, hu⟩, fun hu => hu.2⟩
        rintro rfl
        exact hn (h.mem_unique hu hmem)
    · rw [herr, h.pending w hsusp]
      decide
  | @timeout t hpc =>
    have herr : ∀ u, ((rtThreadTimeout s.state t).thread u).error =
        Function.update (fun v => (s.state.thread v).error) t .etimeout u := by
      intro u
      by_cases hut : u = t
      · simp [rtThreadTimeout, hut, Thread.timeout]
      · simp [rtThreadTimeout, hut]
    refine h.wake rfl ((h.calls.expire hpc (by decide)).congr fun u _ => herr u)
      (fun n => (h.mutexOk n).erase t) (fun n u => ?_) (fun u hut => ?_) ?_
    · exact (h.mutexOk n).nodup.mem_erase_iff
    · rw [herr, Function.update_of_ne hut]
    · rw [herr, Function.update_self]
      decide

theorem step_inv {s s' : Sys T M} {a : Act T M} (h : Inv s) (hs : step s a = some s') : Inv s' :=
  effect_inv h (step_effect h.quiet hs)

theorem run_inv {flag : M → IpcFlag} {thread : T → Thread} {s : Sys T M} {acts : List (Act T M)}
    (hrun : exec step (start flag thread) acts = some s) : Inv s :=
  exec_inv Inv (fun _ _ _ => step_inv) (start_inv flag thread) hrun

end RtThread.Ipc.Mutex
