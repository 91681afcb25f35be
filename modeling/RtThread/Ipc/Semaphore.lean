import RtThread.Lib.Transition
import RtThread.Lib.Word
import RtThread.Ipc.Calls

/-!
# Semaphores (`ipc.c:198-470`)

A semaphore and any number of threads that take and release it. `rt_sem_take` is two
sections: the first ends with a return or with the suspension of the thread, the
second reads `thread->error` after the thread was made ready again. `rt_sem_release`
and the expiry of a waiter's timer are one section each.
-/

namespace RtThread.Ipc.Semaphore

open RtThread.Lib RtThread.Lib.Word RtThread.Lib.Transition
open RtThread.Ipc.Base RtThread.Ipc.Calls

/-- `struct rt_semaphore` (`rtdef.h:654-660`); `value` is an `rt_uint16_t`. -/
structure RtSemaphore (T : Type*) where
  value : ℕ
  suspendThread : List T
  flag : IpcFlag

/-- The system; `hist` and `released` are history (the take calls, and the number of
releases done). -/
structure Sys (T : Type*) where
  sem : RtSemaphore T
  thread : T → Thread
  hist : History T
  released : ℕ

variable {T : Type*} [DecidableEq T]

/-- `rt_sem_init` (`ipc.c:198-219`), with its assertion on the initial value. -/
def rtSemInit (value : ℕ) (flag : IpcFlag) (thread : T → Thread) : Option (Sys T) :=
  if value < 0x10000 then some ⟨⟨value, [], flag⟩, thread, empty, 0⟩ else none

def Sys.prio (s : Sys T) (t : T) : ℕ := (s.thread t).currentPriority

/-- `rt_sem_take` up to the call of `rt_schedule` (`ipc.c:335-393`). -/
def rtSemTake (s : Sys T) (t : T) (time : ℤ) : Sys T :=
  if 0 < s.sem.value then
    { s with sem := { s.sem with value := dec 16 s.sem.value }, hist := s.hist.pass }
  else if time = 0 then
    { s with hist := s.hist.refuse .etimeout }
  else
    { s with
      sem := { s.sem with
        suspendThread := rtIpcListSuspend s.sem.flag s.prio s.sem.suspendThread t }
      thread := Function.update s.thread t (({ s.thread t with error := .eok } : Thread).suspend time)
      hist := s.hist.block t }

/-- `rt_sem_take` after `rt_schedule` (`ipc.c:398-407`): `thread->error` is returned. -/
def rtSemTakeReturn (s : Sys T) (t : T) : Sys T :=
  { s with hist := s.hist.finish t (s.thread t).error }

/-- `rt_sem_trytake` (`ipc.c:418-421`). -/
def rtSemTrytake (s : Sys T) (t : T) : Sys T := rtSemTake s t 0

/-- `rt_sem_release` (`ipc.c:432-470`): the first waiter gets the token directly, or
the value is incremented. -/
def rtSemRelease (s : Sys T) : Sys T :=
  match s.sem.suspendThread with
  | w :: rest =>
    { s with
      sem := { s.sem with suspendThread := rest }
      thread := Function.update s.thread w (s.thread w).resume
      hist := s.hist.grant w
      released := s.released + 1 }
  | [] => { s with sem := { s.sem with value := inc 16 s.sem.value }, released := s.released + 1 }

/-- `rt_thread_timeout` of a thread suspended on the semaphore (`thread.c:747-769`). -/
def rtThreadTimeout (s : Sys T) (t : T) : Sys T :=
  { s with
    sem := { s.sem with suspendThread := s.sem.suspendThread.erase t }
    thread := Function.update s.thread t (s.thread t).timeout
    hist := s.hist.expire t }

inductive Act (T : Type*) where
  | take (t : T) (time : ℤ)
  | trytake (t : T)
  | takeReturn (t : T)
  | release
  | timeout (t : T)

/-- One section. A thread starts a call only outside of a call, returns only once it
is ready again, and only a running timer expires. -/
def step (s : Sys T) : Act T → Option (Sys T)
  | .take t time => if s.hist.pc t = .idle then some (rtSemTake s t time) else none
  | .trytake t => if s.hist.pc t = .idle then some (rtSemTrytake s t) else none
  | .takeReturn t => if s.hist.pc t = .resumed then some (rtSemTakeReturn s t) else none
  | .release => some (rtSemRelease s)
  | .timeout t =>
    if s.hist.pc t = .suspended ∧ (s.thread t).threadTimer = true then some (rtThreadTimeout s t)
    else none

theorem step_cases {s s' : Sys T} {a : Act T} (h : step s a = some s') :
    (∃ t time, s.hist.pc t = .idle ∧ s' = rtSemTake s t time) ∨
    (∃ t, s.hist.pc t = .resumed ∧ s' = rtSemTakeReturn s t) ∨
    (a = .release ∧ s' = rtSemRelease s) ∨
    (∃ t, s.hist.pc t = .suspended ∧ s' = rtThreadTimeout s t) := by
  cases a with
  | take t time =>
    simp only [step, Option.ite_none_right_eq_some, Option.some.injEq] at h
    exact Or.inl ⟨t, time, h.1, h.2.symm⟩
  | trytake t =>
    simp only [step, Option.ite_none_right_eq_some, Option.some.injEq] at h
    exact Or.inl ⟨t, 0, h.1, h.2.symm⟩
  | takeReturn t =>
    simp only [step, Option.ite_none_right_eq_some, Option.some.injEq] at h
    exact Or.inr (Or.inl ⟨t, h.1, h.2.symm⟩)
  | release =>
    simp only [step, Option.some.injEq] at h
    exact Or.inr (Or.inr (Or.inl ⟨rfl, h.symm⟩))
  | timeout t =>
    simp only [step, Option.ite_none_right_eq_some, Option.some.injEq] at h
    exact Or.inr (Or.inr (Or.inr ⟨t, h.1.1, h.2.symm⟩))

/-- What every run keeps. The suspend list holds exactly the suspended threads, a
suspended thread has not failed yet, and nobody waits while a token is there. -/
structure Inv (s : Sys T) : Prop where
  calls : Ok s.hist fun t => (s.thread t).error
  value_lt : s.sem.value < 2 ^ 16
  waiting : ∀ t, t ∈ s.sem.suspendThread ↔ s.hist.pc t = .suspended
  nodup : s.sem.suspendThread.Nodup
  pending : ∀ t, s.hist.pc t = .suspended → (s.thread t).error = .eok
  available : 0 < s.sem.value → s.sem.suspendThread = []

omit [DecidableEq T] in
theorem rtSemInit_eq {value : ℕ} {flag : IpcFlag} {thread : T → Thread} {s : Sys T}
    (h : rtSemInit value flag thread = some s) :
    value < 2 ^ 16 ∧ s = ⟨⟨value, [], flag⟩, thread, empty, 0⟩ := by
  simp only [rtSemInit, Option.ite_none_right_eq_some, Option.some.injEq] at h
  exact ⟨h.1, h.2.symm⟩

omit [DecidableEq T] in
theorem rtSemInit_inv {value : ℕ} {flag : IpcFlag} {thread : T → Thread} {s : Sys T}
    (h : rtSemInit value flag thread = some s) : Inv s := by
  obtain ⟨hv, rfl⟩ := rtSemInit_eq h
  exact ⟨empty_ok _, hv, by simp [empty], List.nodup_nil, by simp [empty], fun _ => rfl⟩

theorem rtSemTake_inv {s : Sys T} (h : Inv s) {t : T} (ht : s.hist.pc t = .idle) (time : ℤ) :
    Inv (rtSemTake s t time) := by
  unfold rtSemTake
  split
  · -- a token is there: no thread is waiting, and none starts to
    rename_i hv
    exact ⟨h.calls.pass, dec_lt h.value_lt, h.waiting, h.nodup, h.pending, fun _ => h.available hv⟩
  · rename_i hv
    split
    · exact ⟨h.calls.refuse (by decide), h.value_lt, h.waiting, h.nodup, h.pending, h.available⟩
    · have hnot : t ∉ s.sem.suspendThread := by
        rw [h.waiting, ht]
        decide
      refine ⟨?_, h.value_lt, ?_, nodup_rtIpcListSuspend.mpr ⟨hnot, h.nodup⟩, ?_,
        fun h0 => absurd h0 hv⟩
      · refine (h.calls.block t).congr fun u hu => ?_
        have hut : u ≠ t := by
          rintro rfl
          simp [History.block] at hu
        simp [hut]
      · intro u
        by_cases hut : u = t
        · simp [hut, History.block]
        · simp [hut, History.block, h.waiting]
      · intro u hu
        by_cases hut : u = t
        · simp [hut, Thread.suspend]
        · simp only [History.block, Function.update_of_ne hut] at hu
          simpa [hut] using h.pending u hu

theorem rtSemTakeReturn_inv {s : Sys T} (h : Inv s) {t : T} (ht : s.hist.pc t = .resumed) :
    Inv (rtSemTakeReturn s t) := by
  have hpc : ∀ u, (rtSemTakeReturn s t).hist.pc u = .suspended ↔ s.hist.pc u = .suspended := by
    intro u
    by_cases hut : u = t
    · simp [rtSemTakeReturn, History.finish, hut, ht]
    · simp [rtSemTakeReturn, History.finish, hut]
  exact ⟨h.calls.finish ht, h.value_lt, fun u => (h.waiting u).trans (hpc u).symm, h.nodup,
    fun u hu => h.pending u ((hpc u).mp hu), h.available⟩

theorem rtSemRelease_inv {s : Sys T} (h : Inv s) : Inv (rtSemRelease s) := by
  unfold rtSemRelease
  split
  · rename_i w rest hlist
    have hw : s.hist.pc w = .suspended := (h.waiting w).mp (by rw [hlist]; exact List.mem_cons_self)
    have hnd := h.nodup
    rw [hlist, List.nodup_cons] at hnd
    have herr : ∀ u, (Function.update s.thread w (s.thread w).resume u).error = (s.thread u).error := by
      intro u
      by_cases huw : u = w
      · simp [huw, Thread.resume]
      · simp [huw]
    refine ⟨(h.calls.grant hw (h.pending w hw)).congr fun u _ => herr u, h.value_lt, ?_, hnd.2, ?_, ?_⟩
    · intro u
      have hmem := h.waiting u
      rw [hlist, List.mem_cons] at hmem
      by_cases huw : u = w
      · simp [huw, hnd.1, History.grant]
      · simpa [huw, History.grant] using hmem
    · intro u hu
      by_cases huw : u = w
      · simp [huw, History.grant] at hu
      · simp only [History.grant, Function.update_of_ne huw] at hu
        exact (herr u).trans (h.pending u hu)
    · intro hv
      have := h.available hv
      simp [hlist] at this
  · rename_i hlist
    exact ⟨h.calls, inc_lt 16 s.sem.value, h.waiting, h.nodup, h.pending, fun _ => hlist⟩

theorem rtThreadTimeout_inv {s : Sys T} (h : Inv s) {t : T} (ht : s.hist.pc t = .suspended) :
    Inv (rtThreadTimeout s t) := by
  have herr : ∀ u, ((rtThreadTimeout s t).thread u).error =
      Function.update (fun v => (s.thread v).error) t .etimeout u := by
    intro u
    by_cases hut : u = t
    · simp [rtThreadTimeout, hut, Thread.timeout]
    · simp [rtThreadTimeout, hut]
  refine ⟨?_, h.value_lt, ?_, h.nodup.erase t, ?_, ?_⟩
  · exact (h.calls.expire ht (by decide)).congr fun u _ => herr u
  · intro u
    by_cases hut : u = t
    · simp [rtThreadTimeout, hut, History.expire, h.nodup.not_mem_erase]
    · simp [rtThreadTimeout, hut, History.expire, h.waiting]
  · intro u hu
    by_cases hut : u = t
    · simp [rtThreadTimeout, hut, History.expire] at hu
    · simp only [rtThreadTimeout, History.expire, Function.update_of_ne hut] at hu
      rw [herr, Function.update_of_ne hut]
      exact h.pending u hu
  · intro hv
    simp [rtThreadTimeout, h.available hv]

theorem step_inv {s s' : Sys T} {a : Act T} (h : Inv s) (hs : step s a = some s') : Inv s' := by
  rcases step_cases hs with ⟨t, time, ht, rfl⟩ | ⟨t, ht, rfl⟩ | ⟨-, rfl⟩ | ⟨t, ht, rfl⟩
  · exact rtSemTake_inv h ht time
  · exact rtSemTakeReturn_inv h ht
  · exact rtSemRelease_inv h
  · exact rtThreadTimeout_inv h ht

/-! ### Conservation of tokens -/

/-- Fewer than 65536 tokens are outstanding: released or there from the start, and
not granted to a take. -/
def Outstanding (initial : ℕ) (s : Sys T) : Prop :=
  initial + s.released < 65536 + s.hist.granted.length

def Conserved (initial : ℕ) (s : Sys T) : Prop :=
  initial + s.released = s.sem.value + s.hist.granted.length

theorem step_conserved {initial : ℕ} {s s' : Sys T} {a : Act T} (hc : Conserved initial s)
    (ho : Outstanding initial s') (hs : step s a = some s') : Conserved initial s' := by
  unfold Conserved Outstanding at *
  rcases step_cases hs with ⟨t, time, ht, rfl⟩ | ⟨t, ht, rfl⟩ | ⟨-, rfl⟩ | ⟨t, ht, rfl⟩
  · unfold rtSemTake
    split
    · rename_i hv
      simp only [History.pass, List.length_cons, dec_of_pos hv]
      omega
    · split <;> exact hc
  · exact hc
  · unfold rtSemRelease at ho ⊢
    split
    · simp only [History.grant, List.length_cons]
      omega
    · rename_i hlist
      have hi : inc 16 s.sem.value = s.sem.value + 1 := by
        apply inc_of_lt
        simp only [hlist] at ho
        omega
      simp only [hi]
      omega
  · exact hc

theorem run_inv {initial : ℕ} {flag : IpcFlag} {thread : T → Thread} {s0 s : Sys T}
    {acts : List (Act T)} (hinit : rtSemInit initial flag thread = some s0)
    (hrun : exec step s0 acts = some s) : Inv s :=
  exec_inv Inv (fun _ _ _ => step_inv) (rtSemInit_inv hinit) hrun

/-- For every initial value and every run with fewer than 65536 tokens outstanding:
the tokens put in are the tokens there and the tokens granted, no call both timed out
and was granted a token, a call returns `RT_EOK` only if it was granted one, and no
thread is suspended while the value is positive. -/
theorem sem_tokens_conserved {initial : ℕ} {flag : IpcFlag} {thread : T → Thread} {s0 s : Sys T}
    {acts : List (Act T)} (hinit : rtSemInit initial flag thread = some s0)
    (hout : AllStates step (Outstanding initial) s0 acts)
    (hrun : exec step s0 acts = some s) :
    initial + s.released = s.sem.value + s.hist.granted.length ∧
    s.hist.granted.Nodup ∧
    (∀ k, (k, .etimeout) ∈ s.hist.returned → k ∉ s.hist.granted) ∧
    (∀ k, (k, .eok) ∈ s.hist.returned → k ∈ s.hist.granted) ∧
    (0 < s.sem.value → ∀ t, s.hist.pc t ≠ .suspended) := by
  have hinv := run_inv hinit hrun
  have h0 : Conserved initial s0 := by
    obtain ⟨-, rfl⟩ := rtSemInit_eq hinit
    simp [Conserved, empty]
  have hboth := exec_inv_of_allStates (fun s => Inv s ∧ Conserved initial s) (Outstanding initial)
    (fun s a s' hI _ ho hs => ⟨step_inv hI.1 hs, step_conserved hI.2 ho hs⟩)
    ⟨rtSemInit_inv hinit, h0⟩ hout hrun
  refine ⟨hboth.2, hinv.calls.nodup, fun k hk => hinv.calls.failure k _ hk (by decide),
    hinv.calls.success, fun hv t ht => ?_⟩
  have hmem := (hinv.waiting t).mpr ht
  rw [hinv.available hv] at hmem
  exact List.not_mem_nil hmem

omit [DecidableEq T] in
instance (initial : ℕ) (s : Sys T) : Decidable (Outstanding initial s) :=
  inferInstanceAs (Decidable (_ < _))

/-- A run with a hand-over and a timeout: thread 1 waits and gets the token released
next, thread 2 waits and its timer expires, a second release leaves one token. -/
def handOverRun : List (Act ℕ) :=
  [.take 1 10, .release, .takeReturn 1, .take 2 5, .timeout 2, .takeReturn 2, .release]

theorem sem_tokens_conserved_handOver :
    ∃ s0 s, rtSemInit 0 .prio (fun t : ℕ => ⟨t, t, .eok, false⟩) = some s0 ∧
      exec step s0 handOverRun = some s ∧ s.sem.value = 1 ∧
      0 + s.released = s.sem.value + s.hist.granted.length ∧
      (∀ k, (k, .etimeout) ∈ s.hist.returned → k ∉ s.hist.granted) := by
  refine ⟨_, _, rfl, rfl, by decide, ?_⟩
  have h := @sem_tokens_conserved ℕ _ 0 .prio (fun t => ⟨t, t, .eok, false⟩) _ _ handOverRun
    rfl (by decide) rfl
  exact ⟨h.1, h.2.2.1⟩

end RtThread.Ipc.Semaphore
