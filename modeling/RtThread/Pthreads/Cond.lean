import RtThread.Ipc.Semaphore

/-!
# Condition variables (`pthread_cond.c`)

A condition variable is a semaphore. `pthread_cond_broadcast` releases it, with the scheduler locked,
until a token is left over; `pthread_cond_wait` unlocks the mutex, takes the semaphore and locks the
mutex again, each of them a step of its own. Any number of threads wait and broadcast.
-/

namespace RtThread.Pthreads.Cond

open RtThread.Lib.Transition RtThread.Lib.Word
open RtThread.Ipc.Base RtThread.Ipc.Calls RtThread.Ipc.Semaphore

/-- Where a thread stands. -/
inductive Place where
  | out
  /-- with the mutex -/
  | holding
  /-- in `_pthread_cond_timedwait`, behind `pthread_mutex_unlock` and before `rt_sem_take` -/
  | released
  /-- in `rt_sem_take`, or behind it and before `pthread_mutex_lock` -/
  | taking
  deriving DecidableEq, Repr

/-- The mutex, the semaphore of the condition variable, and the threads. A call is `due` when a broadcast
began after it had unlocked the mutex; `taken` when a waiter has taken a token since the last
broadcast. -/
structure Sys (T : Type*) where
  mutex : Option T
  sem : Ipc.Semaphore.Sys T
  place : T → Place
  due : T → Bool
  taken : Bool

variable {T : Type*} [DecidableEq T]

/-- `pthread_cond_init` (`pthread_cond.c:74-102`), with `rt_sem_init(&cond->sem, cond_name, 0, RT_IPC_FLAG_FIFO)`. -/
def pthreadCondInit (thread : T → Thread) : Sys T :=
  ⟨none, ⟨⟨0, [], .fifo⟩, thread, empty, 0⟩, fun _ => .out, fun _ => false, false⟩

/-- The loop of `pthread_cond_broadcast` (`pthread_cond.c:133-154`) of thread `t`. -/
def broadcastLoop (t : T) : ℕ → Ipc.Semaphore.Sys T → Option (Ipc.Semaphore.Sys T)
  | 0, _ => none
  | fuel + 1, s =>
    if 0 < s.sem.value then some (rtSemRelease (rtSemTrytake s t))
    else broadcastLoop t fuel (rtSemRelease (rtSemTrytake s t))

/-- `pthread_cond_broadcast` (`pthread_cond.c:124-159`); the loop is over before the fuel is
(`broadcastLoop_spec`). -/
def pthreadCondBroadcast (s : Sys T) (t : T) : Option (Sys T) :=
  (broadcastLoop t (s.sem.sem.suspendThread.length + 2) s.sem).map fun sem =>
    { s with
      sem := sem
      due := fun u => s.place u = .released ∨ s.place u = .taking
      taken := false }

inductive Act (T : Type*) where
  | lock (t : T)
  | unlock (t : T)
  /-- `_pthread_cond_timedwait` up to the end of `pthread_mutex_unlock` -/
  | wait (t : T)
  | semTake (t : T)
  | semTakeReturn (t : T)
  /-- `pthread_mutex_lock` behind `rt_sem_take` -/
  | relock (t : T)
  | broadcast (t : T)
  deriving DecidableEq, Repr

def step (s : Sys T) (a : Act T) : Option (Sys T) :=
  match a with
  | .lock t =>
    if s.place t = .out ∧ s.mutex = none then
      some { s with mutex := some t, place := Function.update s.place t .holding }
    else none
  | .unlock t =>
    if s.place t = .holding then some { s with mutex := none, place := Function.update s.place t .out } else none
  | .wait t =>
    if s.place t = .holding then
      some { s with
        mutex := none
        place := Function.update s.place t .released
        due := Function.update s.due t false }
    else none
  | .semTake t =>
    if s.place t = .released then
      some { s with
        sem := rtSemTake s.sem t (-1)
        place := Function.update s.place t .taking
        taken := s.taken || decide (0 < s.sem.sem.value) }
    else none
  | .semTakeReturn t =>
    if s.sem.hist.pc t = .resumed then some { s with sem := rtSemTakeReturn s.sem t } else none
  | .relock t =>
    if s.place t = .taking ∧ s.sem.hist.pc t = .idle ∧ s.mutex = none then
      some { s with
        mutex := some t
        place := Function.update s.place t .holding
        due := Function.update s.due t false }
    else none
  | .broadcast t => if s.place t = .holding then pthreadCondBroadcast s t else none

theorem step_cases {s s' : Sys T} {a : Act T} (h : step s a = some s') :
    (∃ t, a = .lock t ∧ s.place t = .out ∧
      s' = { s with mutex := some t, place := Function.update s.place t .holding }) ∨
    (∃ t, a = .unlock t ∧ s.place t = .holding ∧
      s' = { s with mutex := none, place := Function.update s.place t .out }) ∨
    (∃ t, a = .wait t ∧ s.place t = .holding ∧ s' = { s with
      mutex := none, place := Function.update s.place t .released, due := Function.update s.due t false }) ∨
    (∃ t, a = .semTake t ∧ s.place t = .released ∧ s' = { s with
      sem := rtSemTake s.sem t (-1)
      place := Function.update s.place t .taking
      taken := s.taken || decide (0 < s.sem.sem.value) }) ∨
    (∃ t, a = .semTakeReturn t ∧ s.sem.hist.pc t = .resumed ∧ s' = { s with sem := rtSemTakeReturn s.sem t }) ∨
    (∃ t, a = .relock t ∧ s.place t = .taking ∧ s.sem.hist.pc t = .idle ∧ s' = { s with
      mutex := some t, place := Function.update s.place t .holding, due := Function.update s.due t false }) ∨
    (∃ t, a = .broadcast t ∧ s.place t = .holding ∧ pthreadCondBroadcast s t = some s') := by
  cases a with
  | lock t =>
    obtain ⟨⟨hp, -⟩, he⟩ := Option.ite_none_right_eq_some.mp h
    exact Or.inl ⟨t, rfl, hp, (Option.some.inj he).symm⟩
  | unlock t =>
    obtain ⟨hp, he⟩ := Option.ite_none_right_eq_some.mp h
    exact Or.inr (Or.inl ⟨t, rfl, hp, (Option.some.inj he).symm⟩)
  | wait t =>
    obtain ⟨hp, he⟩ := Option.ite_none_right_eq_some.mp h
    exact Or.inr (Or.inr (Or.inl ⟨t, rfl, hp, (Option.some.inj he).symm⟩))
  | semTake t =>
    obtain ⟨hp, he⟩ := Option.ite_none_right_eq_some.mp h
    exact Or.inr (Or.inr (Or.inr (Or.inl ⟨t, rfl, hp, (Option.some.inj he).symm⟩)))
  | semTakeReturn t =>
    obtain ⟨hp, he⟩ := Option.ite_none_right_eq_some.mp h
    exact Or.inr (Or.inr (Or.inr (Or.inr (Or.inl ⟨t, rfl, hp, (Option.some.inj he).symm⟩))))
  | relock t =>
    obtain ⟨⟨hp, hpc, -⟩, he⟩ := Option.ite_none_right_eq_some.mp h
    exact Or.inr (Or.inr (Or.inr (Or.inr (Or.inr (Or.inl ⟨t, rfl, hp, hpc, (Option.some.inj he).symm⟩)))))
  | broadcast t =>
    obtain ⟨hp, he⟩ := Option.ite_none_right_eq_some.mp h
    exact Or.inr (Or.inr (Or.inr (Or.inr (Or.inr (Or.inr ⟨t, rfl, hp, he⟩)))))

/-! ### The broadcast -/

/-- The semaphore after a broadcast: everybody who was suspended is resumed, and one token is left. -/
structure Broadcasted (s s' : Ipc.Semaphore.Sys T) : Prop where
  inv : Inv s'
  value_eq : s'.sem.value = 1
  pc_eq : ∀ u, s'.hist.pc u = if s.hist.pc u = .suspended then .resumed else s.hist.pc u

theorem release_trytake {s : Ipc.Semaphore.Sys T} {t : T} (h : Inv s) (ht : s.hist.pc t = .idle) (hvalue : s.sem.value = 1) :
    Broadcasted s (rtSemRelease (rtSemTrytake s t)) := by
  have hpos : 0 < s.sem.value := by omega
  have hnone := h.available hpos
  have hinv := rtSemRelease_inv (rtSemTake_inv h ht 0)
  have hrelease : rtSemRelease (rtSemTrytake s t) = { s with
      sem := { s.sem with value := inc 16 (dec 16 s.sem.value) }
      hist := s.hist.pass, released := s.released + 1 } := by
    simp only [rtSemTrytake, rtSemTake, if_pos hpos, rtSemRelease, hnone]
  refine ⟨hinv, ?_, fun u => ?_⟩
  · rw [hrelease, hvalue]
    rfl
  · have hawake : s.hist.pc u ≠ .suspended := fun hu => by
      have hmem := (h.waiting u).mpr hu
      rw [hnone] at hmem
      exact List.not_mem_nil hmem
    rw [if_neg hawake, hrelease]
    rfl

theorem broadcastLoop_spec {s : Ipc.Semaphore.Sys T} {t : T} (h : Inv s) (ht : s.hist.pc t = .idle)
    (hvalue : s.sem.value ≤ 1) :
    ∃ s', broadcastLoop t (s.sem.suspendThread.length + 2) s = some s' ∧ Broadcasted s s' := by
  generalize hlist : s.sem.suspendThread = list
  induction list generalizing s with
  | nil =>
    have hawake : ∀ u, s.hist.pc u ≠ .suspended := fun u hu => by
      have hmem := (h.waiting u).mpr hu
      rw [hlist] at hmem
      exact List.not_mem_nil hmem
    rcases Nat.le_one_iff_eq_zero_or_eq_one.mp hvalue with hzero | hone
    · have hinv := rtSemRelease_inv (rtSemTake_inv h ht 0)
      have hrelease : rtSemRelease (rtSemTrytake s t) = { s with
          sem := { s.sem with value := inc 16 s.sem.value }
          hist := s.hist.refuse .etimeout, released := s.released + 1 } := by
        simp only [rtSemTrytake, rtSemTake, hzero, lt_irrefl, if_false, if_true, rtSemRelease, hlist]
      have hvalue' : (rtSemRelease (rtSemTrytake s t)).sem.value = 1 := by
        rw [hrelease, hzero]
        rfl
      have hdone := release_trytake hinv (by rw [← rtSemTrytake, hrelease]; exact ht) hvalue'
      refine ⟨_, ?_, hdone.inv, hdone.value_eq, fun u => ?_⟩
      · simp only [List.length_nil, broadcastLoop]
        rw [if_neg (by omega), if_pos (by omega)]
        rfl
      · rw [hdone.pc_eq]
        have hsame : (rtSemRelease (rtSemTake s t 0)).hist.pc u = s.hist.pc u := by
          rw [← rtSemTrytake, hrelease]
          rfl
        rw [hsame]
    · refine ⟨_, ?_, release_trytake h ht hone⟩
      simp only [List.length_nil, broadcastLoop]
      rw [if_pos (by omega)]
  | cons w rest ih =>
    have hzero : s.sem.value = 0 := by
      by_contra hne
      have hnone := h.available (by omega)
      rw [hlist] at hnone
      cases hnone
    have hw : s.hist.pc w = .suspended := (h.waiting w).mp (by rw [hlist]; exact List.mem_cons_self)
    have hinv := rtSemRelease_inv (rtSemTake_inv h ht 0)
    have hrelease : rtSemRelease (rtSemTrytake s t) = { s with
        sem := { s.sem with suspendThread := rest }
        thread := Function.update s.thread w (s.thread w).resume
        hist := (s.hist.refuse .etimeout).grant w, released := s.released + 1 } := by
      simp only [rtSemTrytake, rtSemTake, hzero, lt_irrefl, if_false, if_true, rtSemRelease, hlist]
    have htw : t ≠ w := fun he => by
      rw [he, hw] at ht
      cases ht
    have hpc : ∀ u, (rtSemRelease (rtSemTrytake s t)).hist.pc u = if u = w then .resumed else s.hist.pc u := by
      intro u
      rw [hrelease]
      exact Function.update_apply ..
    obtain ⟨s', hloop, hdone⟩ := @ih (rtSemRelease (rtSemTrytake s t)) hinv (by rw [hpc, if_neg htw]; exact ht)
      (by rw [hrelease]; exact hvalue) (by rw [hrelease])
    refine ⟨s', ?_, hdone.inv, hdone.value_eq, fun u => ?_⟩
    · rw [List.length_cons, broadcastLoop, if_neg (by omega)]
      exact hloop
    · rw [hdone.pc_eq, hpc]
      rcases eq_or_ne u w with rfl | hne
      · simp [hw]
      · simp [hne]

/-! ### Runs -/

/-- No call is suspended that had unlocked the mutex before a broadcast. -/
def NoneLeft (s : Sys T) : Prop := ∀ t, s.due t = true → s.sem.hist.pc t ≠ .suspended

/-- A thread that was between the mutex and the semaphore at a broadcast takes the semaphore before
anybody else does. -/
def Kept (s : Sys T) : Act T → Prop
  | .semTake t => s.due t = true → s.taken = false
  | _ => True

/-- The token that a broadcast leaves is there until a waiter takes it. -/
structure Tokens (s : Sys T) : Prop where
  inv : Inv s.sem
  outside : ∀ t, s.place t ≠ .taking → s.sem.hist.pc t = .idle
  value_le : s.sem.sem.value ≤ 1
  left : ∀ t, s.due t = true → s.place t = .released → s.sem.sem.value = if s.taken = true then 0 else 1

variable {s s' : Sys T} {t : T} {place : Place}

theorem of_update_false {due : T → Bool} {u : T} (h : Function.update due t false u = true) : due u = true := by
  rcases eq_or_ne u t with rfl | hne
  · rw [Function.update_self] at h
    cases h
  · rwa [Function.update_of_ne hne] at h

theorem Tokens.goto (h : Tokens s) (ht : s.sem.hist.pc t = .idle) (mutex : Option T) {due : T → Bool}
    (hdue : ∀ u, due u = true → s.due u = true) (hself : place = .released → due t = false) :
    Tokens { s with mutex := mutex, place := Function.update s.place t place, due := due } := by
  refine ⟨h.inv, fun u hu => ?_, h.value_le, fun u hu hp => ?_⟩
  · rcases eq_or_ne u t with rfl | hne
    · exact ht
    · simp only [Function.update_of_ne hne] at hu
      exact h.outside u hu
  · rcases eq_or_ne u t with rfl | hne
    · simp only [Function.update_self] at hp
      simp only [hself hp] at hu
      cases hu
    · simp only [Function.update_of_ne hne] at hp
      exact h.left u (hdue u hu) hp

theorem semTake_pc {s : Ipc.Semaphore.Sys T} (ht : s.hist.pc t = .idle) (u : T) :
    (rtSemTake s t (-1)).hist.pc u =
      if u = t then if 0 < s.sem.value then .idle else .suspended else s.hist.pc u := by
  unfold rtSemTake
  split
  · rename_i hpos
    simp only
    split
    · rename_i he
      rw [he]
      exact ht
    · rfl
  · rename_i hpos
    rw [if_neg (by decide)]
    simp only
    exact Function.update_apply ..

theorem Tokens.semTake (h : Tokens s) (hp : s.place t = .released) :
    Tokens { s with
      sem := rtSemTake s.sem t (-1)
      place := Function.update s.place t .taking
      taken := s.taken || decide (0 < s.sem.sem.value) } := by
  have ht : s.sem.hist.pc t = .idle := h.outside t (by rw [hp]; decide)
  have hvalue : (rtSemTake s.sem t (-1)).sem.value = s.sem.sem.value - 1 := by
    unfold rtSemTake
    split
    · rename_i hpos
      exact dec_of_pos hpos
    · rename_i hzero
      rw [if_neg (by decide)]
      simp only
      omega
  have hle := h.value_le
  refine ⟨rtSemTake_inv h.inv ht _, fun u hu => ?_, by simp only [hvalue]; omega, fun u hu hplace => ?_⟩
  · rcases eq_or_ne u t with rfl | hne
    · exact absurd (Function.update_self ..) hu
    · simp only [Function.update_of_ne hne] at hu
      simp only [semTake_pc ht, if_neg hne]
      exact h.outside u hu
  · rcases eq_or_ne u t with rfl | hne
    · simp only [Function.update_self] at hplace
      cases hplace
    · simp only [Function.update_of_ne hne] at hplace
      have hleft := h.left u hu hplace
      simp only [hvalue, hleft]
      cases s.taken <;> rfl

theorem broadcast_spec (h : Tokens s) (hp : s.place t = .holding) : ∃ sem, Broadcasted s.sem sem ∧
    pthreadCondBroadcast s t = some { s with
      sem := sem, due := fun u => s.place u = .released ∨ s.place u = .taking, taken := false } := by
  obtain ⟨sem, hloop, hdone⟩ := broadcastLoop_spec h.inv (h.outside t (by rw [hp]; decide)) h.value_le
  refine ⟨sem, hdone, ?_⟩
  rw [pthreadCondBroadcast, hloop]
  rfl

omit [DecidableEq T] in
theorem Tokens.broadcast (h : Tokens s) {sem : Ipc.Semaphore.Sys T} (hdone : Broadcasted s.sem sem) :
    Tokens { s with
      sem := sem, due := fun u => s.place u = .released ∨ s.place u = .taking, taken := false } := by
  refine ⟨hdone.inv, fun u hu => ?_, hdone.value_eq.le, fun u _ _ => hdone.value_eq⟩
  simp only [hdone.pc_eq, h.outside u hu]
  rfl

omit [DecidableEq T] in
theorem Broadcasted.awake {s s' : Ipc.Semaphore.Sys T} (h : Broadcasted s s') (u : T) : s'.hist.pc u ≠ .suspended := by
  rw [h.pc_eq]
  split
  · decide
  · rename_i hne
    exact hne

theorem Tokens.semTakeReturn (h : Tokens s) (ht : s.sem.hist.pc t = .resumed) :
    Tokens { s with sem := rtSemTakeReturn s.sem t } := by
  refine ⟨rtSemTakeReturn_inv h.inv ht, fun u hu => ?_, h.value_le, h.left⟩
  have hidle := h.outside u hu
  rcases eq_or_ne u t with rfl | hne
  · exact Function.update_self ..
  · exact (Function.update_of_ne hne ..).trans hidle

theorem step_tokens {a : Act T} (h : Tokens s) (hstep : step s a = some s') : Tokens s' := by
  obtain ⟨t, -, hp, rfl⟩ | ⟨t, -, hp, rfl⟩ | ⟨t, -, hp, rfl⟩ | ⟨t, -, hp, rfl⟩ | ⟨t, -, ht, rfl⟩ | ⟨t, -, hp, ht, rfl⟩ |
    ⟨t, -, hp, hb⟩ := step_cases hstep
  · exact h.goto (h.outside t (by rw [hp]; decide)) _ (fun u hu => hu) fun he => (by cases he)
  · exact h.goto (h.outside t (by rw [hp]; decide)) _ (fun u hu => hu) fun he => (by cases he)
  · exact h.goto (h.outside t (by rw [hp]; decide)) _ (fun u hu => of_update_false hu) fun _ => Function.update_self ..
  · exact h.semTake hp
  · exact h.semTakeReturn ht
  · exact h.goto ht _ (fun u hu => of_update_false hu) fun he => (by cases he)
  · obtain ⟨sem, hdone, he⟩ := broadcast_spec h hp
    rw [he] at hb
    cases hb
    exact h.broadcast hdone

theorem step_noneLeft {a : Act T} (h : Tokens s) (hnone : NoneLeft s) (hstep : step s a = some s') :
    NoneLeft s' ↔ Kept s a := by
  obtain ⟨t, rfl, -, rfl⟩ | ⟨t, rfl, -, rfl⟩ | ⟨t, rfl, -, rfl⟩ | ⟨t, rfl, hp, rfl⟩ | ⟨t, rfl, ht, rfl⟩ |
    ⟨t, rfl, -, -, rfl⟩ | ⟨t, rfl, hp, hb⟩ := step_cases hstep
  · exact iff_of_true hnone trivial
  · exact iff_of_true hnone trivial
  · exact iff_of_true (fun u hu => hnone u (of_update_false hu)) trivial
  · have ht : s.sem.hist.pc t = .idle := h.outside t (by rw [hp]; decide)
    simp only [NoneLeft, Kept, semTake_pc ht]
    constructor
    · intro hall hdue
      have hself := hall t hdue
      have hleft := h.left t hdue hp
      rw [if_pos rfl] at hself
      cases htaken : s.taken with
      | false => rfl
      | true =>
        rw [htaken, if_pos rfl] at hleft
        rw [if_neg (by omega)] at hself
        exact absurd rfl hself
    · intro hfirst u hdue
      split
      · rename_i he
        subst he
        have hleft := h.left u hdue hp
        rw [hfirst hdue] at hleft
        rw [hleft]
        decide
      · exact hnone u hdue
  · refine iff_of_true (fun u hu => ?_) trivial
    have hawake := hnone u hu
    simp only [rtSemTakeReturn, History.finish]
    rcases eq_or_ne u t with rfl | hne
    · rw [Function.update_self]
      decide
    · rw [Function.update_of_ne hne]
      exact hawake
  · exact iff_of_true (fun u hu => hnone u (of_update_false hu)) trivial
  · obtain ⟨sem, hdone, he⟩ := broadcast_spec h hp
    rw [he] at hb
    cases hb
    exact iff_of_true (fun u _ => hdone.awake u) trivial

/-- In every run, a broadcast leaves no call suspended exactly when the threads that it finds between the
mutex and the semaphore come to the semaphore before anybody has taken the token. -/
theorem broadcast_wakes_all_iff (thread : T → Thread) (as : List (Act T)) :
    AllStates step NoneLeft (pthreadCondInit thread) as ↔ AllSteps step Kept (pthreadCondInit thread) as := by
  refine allStates_iff_allSteps Tokens NoneLeft Kept (fun s a s' => step_tokens) (fun s a s' => step_noneLeft) as ?_ ?_
  · exact ⟨@rtSemInit_inv T 0 .fifo thread _ rfl, fun t _ => rfl, Nat.zero_le 1, fun t ht => (by cases ht)⟩
  · exact fun t ht => (by cases ht)

/-- Two threads are between the mutex and the semaphore when a third one broadcasts. -/
def twoInTheGap : List (Act (Option Bool)) :=
  [.lock (some false), .wait (some false), .lock (some true), .wait (some true), .lock none, .broadcast none,
    .semTake (some false), .semTake (some true)]

theorem broadcast_misses_second : ∃ s, exec step (pthreadCondInit fun _ => rtThreadInit 10) twoInTheGap = some s ∧
    s.due (some true) = true ∧ s.sem.hist.pc (some true) = .suspended :=
  ⟨_, rfl, rfl, rfl⟩

end RtThread.Pthreads.Cond
