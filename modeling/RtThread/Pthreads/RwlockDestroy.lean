import RtThread.Lib.Word
import RtThread.Pthreads.Rwlock

/-!
# Destroying a read-write lock (`pthread_rwlock.c:72-122`, `pthread_cond.c:73-159`)

A condition variable is a semaphore with a queue of suspended threads. A signal that finds no thread in the
queue leaves a token, and a broadcast always does. `pthread_rwlock_destroy` looks for these tokens.
-/

namespace RtThread.Pthreads.RwlockDestroy

open RtThread.Lib.Counting RtThread.Lib.Transition RtThread.Lib.Word RtThread.Pthreads.Rwlock

/-- The semaphore of a condition variable; `value` is an `rt_uint16_t`. -/
structure Semaphore (T : Type*) where
  value : ℕ
  suspendThread : List T

/-- The lock with the semaphores of its condition variables. -/
structure Lock (T : Type*) where
  sys : Sys T
  sem : Cond → Semaphore T

/-- `pthread_rwlock_init` with `pthread_cond_init`: both semaphores begin at 0. -/
def init (T : Type*) : Lock T := ⟨pthreadRwlockInit T, fun _ => ⟨0, []⟩⟩

variable {T : Type*} [DecidableEq T]

def Lock.setSem (s : Lock T) (cond : Cond) (sem : Semaphore T) : Lock T :=
  { s with sem := Function.update s.sem cond sem }

/-- A suspended thread is ready again. -/
def Place.wake : Place → Place
  | .waiting cond timed => .woken cond timed false
  | place => place

/-- `rt_sem_trytake`; `none` is `-RT_ETIMEOUT`. -/
def rtSemTrytake (s : Lock T) (cond : Cond) : Option (Lock T) :=
  if 0 < (s.sem cond).value then some (s.setSem cond { s.sem cond with value := dec 16 (s.sem cond).value }) else none

/-- `rt_sem_release` -/
def rtSemRelease (s : Lock T) (cond : Cond) : Lock T :=
  match (s.sem cond).suspendThread with
  | [] => s.setSem cond { s.sem cond with value := inc 16 (s.sem cond).value }
  | t :: rest =>
    Lock.setSem { s with sys := s.sys.goto t (Place.wake (s.sys.place t)) } cond
      { s.sem cond with suspendThread := rest }

/-- The loop of `pthread_cond_broadcast` (`pthread_cond.c:133-154`). -/
def broadcastLoop (cond : Cond) : ℕ → Lock T → Option (Lock T)
  | 0, _ => none
  | fuel + 1, s =>
    match rtSemTrytake s cond with
    | some taken => some (rtSemRelease taken cond)
    | none => broadcastLoop cond fuel (rtSemRelease s cond)

/-- `pthread_cond_broadcast` (`pthread_cond.c:124-159`). -/
def pthreadCondBroadcast (s : Lock T) (cond : Cond) : Option (Lock T) :=
  broadcastLoop cond ((s.sem cond).suspendThread.length + 2) s

/-- `pthread_rwlock_unlock` (`pthread_rwlock.c:274-305`), behind `pthread_mutex_lock`. -/
def unlockSection (s : Lock T) (t : T) : Option (Lock T) :=
  let s := { s with sys := release s.sys t }
  if s.sys.nwaitwriters > 0 then
    if s.sys.refcount = 0 then some (rtSemRelease s .writers) else some s
  else if s.sys.nwaitreaders > 0 then pthreadCondBroadcast s .readers
  else some s

inductive Act (T : Type*) where
  | call (t : T) (op : Op)
  /-- `pthread_mutex_lock` and the section behind it -/
  | lock (t : T)
  /-- `rt_sem_take` of a condition wait -/
  | semTake (t : T)
  | timeout (t : T)
  | relock (t : T)
  | unlock (t : T)
  deriving DecidableEq, Repr

/-- A step of the system. A thread unlocks only when it holds the lock. A timed wait that finds its time over is
suspended, and comes to its time at once. -/
def step [Fintype T] (s : Lock T) (a : Act T) : Option (Lock T) :=
  match a with
  | .call t op => (Rwlock.step s.sys (.call t op)).map fun sys => { s with sys := sys }
  | .lock t =>
    match s.sys.place t with
    | .called op =>
      if s.sys.mutex = none then
        let sys := Sys.goto { s.sys with mutex := some t } t .locked
        if op = .unlock then unlockSection { s with sys := sys } t
        else (rwlockSection op sys t none).map fun sys => { s with sys := sys }
      else none
    | _ => none
  | .semTake t =>
    match s.sys.place t with
    | .waiting cond timed =>
      if t ∈ (s.sem cond).suspendThread then none
      else
        match rtSemTrytake s cond with
        | some taken => some { taken with sys := taken.sys.goto t (.woken cond timed false) }
        | none => some (s.setSem cond { s.sem cond with suspendThread := (s.sem cond).suspendThread ++ [t] })
    | _ => none
  | .timeout t =>
    match s.sys.place t with
    | .waiting cond true =>
      if t ∈ (s.sem cond).suspendThread then
        some (Lock.setSem { s with sys := s.sys.goto t (.woken cond true true) } cond
          { s.sem cond with suspendThread := (s.sem cond).suspendThread.erase t })
      else none
    | _ => none
  | .relock t => (Rwlock.step s.sys (.relock t)).map fun sys => { s with sys := sys }
  | .unlock t => (Rwlock.step s.sys (.unlock t)).map fun sys => { s with sys := sys }

/-- `pthread_cond_destroy` (`pthread_cond.c:104-121`). -/
def pthreadCondDestroy (s : Lock T) (cond : Cond) : Lock T × Result :=
  match rtSemTrytake s cond with
  | none => (s, .ebusy)
  | some taken => (taken.setSem cond ⟨0, []⟩, .ok)

/-- `pthread_rwlock_destroy` (`pthread_rwlock.c:72-122`) of thread `t`, from where its `pthread_mutex_lock`
finds the mutex free. -/
def pthreadRwlockDestroy (s : Lock T) (t : T) : Lock T × Result :=
  let locked := { s with sys := { s.sys with mutex := some t } }
  if locked.sys.refcount ≠ 0 ∨ locked.sys.nwaitreaders ≠ 0 ∨ locked.sys.nwaitwriters ≠ 0 then
    -- it returns here, with the mutex
    (locked, .ebusy)
  else
    let unlock := fun s : Lock T => { s with sys := { s.sys with mutex := none } }
    match rtSemTrytake locked .readers with
    | none => (unlock locked, .ebusy)
    | some taken =>
      match rtSemTrytake taken .writers with
      | none => (unlock (rtSemRelease taken .readers), .ebusy)
      | some both =>
        let released := rtSemRelease (rtSemRelease both .readers) .writers
        (unlock (pthreadCondDestroy (pthreadCondDestroy released .readers).1 .writers).1, .ok)

/-- A thread holds the lock, or waits for it. -/
def Busy (s : Sys T) : Prop := s.readers ≠ [] ∨ s.writers ≠ [] ∨ ∃ t cond, (s.place t).inWait cond = true

/-- A lock that is in use is reported and left alone, and one that is not is destroyed. -/
def DestroyedIfFree (s : Lock T) (t : T) : Prop :=
  (Busy s.sys → pthreadRwlockDestroy s t = (s, .ebusy)) ∧ (¬Busy s.sys → (pthreadRwlockDestroy s t).2 = .ok)

variable {s s' : Lock T} {t : T} {cond : Cond}

theorem wake_cases (place : Place) : Place.wake place = place ∨ ∃ cond timed, place = .waiting cond timed := by
  cases place with
  | waiting cond timed => exact Or.inr ⟨cond, timed, rfl⟩
  | out => exact Or.inl rfl
  | called op => exact Or.inl rfl
  | locked => exact Or.inl rfl
  | woken cond timed timedOut => exact Or.inl rfl
  | unlocking result => exact Or.inl rfl

omit [DecidableEq T] in
theorem trytake_cases {taken : Lock T} (h : rtSemTrytake s cond = some taken) :
    0 < (s.sem cond).value ∧ taken.sys = s.sys ∧
      taken.sem = Function.update s.sem cond { s.sem cond with value := dec 16 (s.sem cond).value } := by
  obtain ⟨hpos, he⟩ := Option.ite_none_right_eq_some.mp h
  cases he
  exact ⟨hpos, rfl, rfl⟩

theorem broadcastLoop_isSome {fuel : ℕ} (hfuel : (s.sem cond).suspendThread.length + 2 ≤ fuel) :
    (broadcastLoop cond fuel s).isSome = true := by
  induction fuel generalizing s with
  | zero => omega
  | succ fuel ih =>
    rw [broadcastLoop]
    cases htake : rtSemTrytake s cond with
    | some taken => rfl
    | none =>
      have hvalue : (s.sem cond).value = 0 := by
        by_contra hne
        rw [rtSemTrytake, if_pos (Nat.pos_of_ne_zero hne)] at htake
        cases htake
      cases hqueue : (s.sem cond).suspendThread with
      | cons t rest =>
        apply ih
        simp [rtSemRelease, hqueue, Lock.setSem]
        simp [hqueue] at hfuel
        omega
      | nil =>
        -- the token that is left over ends the loop
        have htoken : 0 < ((rtSemRelease s cond).sem cond).value := by
          simp [rtSemRelease, hqueue, Lock.setSem, hvalue, inc]
        obtain ⟨fuel, rfl⟩ := Nat.exists_eq_succ_of_ne_zero (by omega : fuel ≠ 0)
        simp only [broadcastLoop, rtSemTrytake, if_pos htoken]
        rfl

section Runs

variable [Fintype T]

theorem counted_wake {s : Sys T} (h : Counted s) (t : T) : Counted (s.goto t (Place.wake (s.place t))) := by
  rcases wake_cases (s.place t) with hsame | ⟨cond, timed, hp⟩
  · rw [Sys.goto, hsame, Function.update_eq_self]
    exact h
  · rw [hp]
    exact h.wakeOne hp

theorem counted_release (h : Counted s.sys) (cond : Cond) : Counted (rtSemRelease s cond).sys := by
  rw [rtSemRelease]
  split
  · exact h
  · exact counted_wake h _

theorem counted_broadcast (h : Counted s.sys) {fuel : ℕ} (hloop : broadcastLoop cond fuel s = some s') :
    Counted s'.sys := by
  induction fuel generalizing s with
  | zero => cases hloop
  | succ fuel ih =>
    rw [broadcastLoop] at hloop
    split at hloop
    · rename_i taken htake
      obtain ⟨-, hsys, -⟩ := trytake_cases htake
      cases hloop
      exact counted_release (by rwa [hsys]) cond
    · exact ih (counted_release h cond) hloop

theorem counted_unlock (h : Counted s.sys) (hp : s.sys.place t = .locked)
    (hholds : t ∈ s.sys.readers ∨ t ∈ s.sys.writers) (hsection : unlockSection s t = some s') : Counted s'.sys := by
  have hreleased := h.release hp hholds
  simp only [unlockSection] at hsection
  split at hsection
  · split at hsection
    · cases hsection
      exact counted_release hreleased .writers
    · cases hsection
      exact hreleased
  · split at hsection
    · exact counted_broadcast hreleased hsection
    · cases hsection
      exact hreleased

theorem counted_step {a : Act T} (h : Counted s.sys) (hstep : step s a = some s') : Counted s'.sys := by
  cases a with
  | call t op =>
    obtain ⟨sys, hsys, rfl⟩ := Option.map_eq_some_iff.mp hstep
    exact h.step hsys
  | lock t =>
    simp only [step] at hstep
    split at hstep
    · rename_i op hp
      obtain ⟨-, he⟩ := Option.ite_none_right_eq_some.mp hstep
      have hlocked := h.lock hp
      have hplace : (Sys.goto { s.sys with mutex := some t } t .locked).place t = .locked := Function.update_self ..
      split at he
      · rename_i hop
        rw [hop] at hp
        exact @counted_unlock T _ ⟨_, s.sem⟩ s' t _ hlocked hplace (h.unlocker t hp) he
      · rename_i hop
        obtain ⟨sys, hsys, rfl⟩ := Option.map_eq_some_iff.mp he
        exact hlocked.section hplace (fun hunlock => absurd hunlock hop) hsys
    · cases hstep
  | semTake t =>
    simp only [step] at hstep
    split at hstep
    · rename_i cond timed hp
      obtain ⟨-, he⟩ := Option.ite_none_left_eq_some.mp hstep
      split at he
      · rename_i taken htake
        obtain ⟨-, hsys, -⟩ := trytake_cases htake
        cases he
        rw [hsys]
        exact h.wakeOne hp
      · cases he
        exact h
    · cases hstep
  | timeout t =>
    simp only [step] at hstep
    split at hstep
    · rename_i cond hp
      obtain ⟨-, he⟩ := Option.ite_none_right_eq_some.mp hstep
      cases he
      exact h.wakeOne hp
    · cases hstep
  | relock t =>
    obtain ⟨sys, hsys, rfl⟩ := Option.map_eq_some_iff.mp hstep
    exact h.step hsys
  | unlock t =>
    obtain ⟨sys, hsys, rfl⟩ := Option.map_eq_some_iff.mp hstep
    exact h.step hsys

omit [DecidableEq T] in
theorem busy_iff {s : Sys T} (h : Counted s) :
    s.refcount ≠ 0 ∨ s.nwaitreaders ≠ 0 ∨ s.nwaitwriters ≠ 0 ↔ Busy s := by
  have hwait : ∀ cond, (count (Place.inWait cond) s.place : ℤ) ≠ 0 ↔ ∃ t, (s.place t).inWait cond = true := by
    intro cond
    rw [Nat.cast_ne_zero, ne_eq, count_eq_zero_iff, not_forall]
    simp only [Bool.not_eq_false]
  have hholders : s.refcount ≠ 0 ↔ s.readers ≠ [] ∨ s.writers ≠ [] := by
    rcases h.holders with ⟨hcount, hone, -⟩ | ⟨hcount, hnone⟩
    · have hsome : s.writers ≠ [] := by
        intro hnil
        rw [hnil] at hone
        cases hone
      exact iff_of_true (by omega) (Or.inr hsome)
    · rw [hcount, Nat.cast_ne_zero, ne_eq, List.length_eq_zero_iff, hnone, or_iff_left (fun hne => hne rfl)]
  rw [h.nwaitreaders_eq, h.nwaitwriters_eq, hwait, hwait, hholders, Busy, or_assoc]
  constructor
  · rintro (hr | hw | ⟨t, ht⟩ | ⟨t, ht⟩)
    · exact Or.inl hr
    · exact Or.inr (Or.inl hw)
    · exact Or.inr (Or.inr ⟨t, .readers, ht⟩)
    · exact Or.inr (Or.inr ⟨t, .writers, ht⟩)
  · rintro (hr | hw | ⟨t, cond, ht⟩)
    · exact Or.inl hr
    · exact Or.inr (Or.inl hw)
    · cases cond with
      | readers => exact Or.inr (Or.inr (Or.inl ⟨t, ht⟩))
      | writers => exact Or.inr (Or.inr (Or.inr ⟨t, ht⟩))

omit [Fintype T] in
theorem destroy_busy (hbusy : s.sys.refcount ≠ 0 ∨ s.sys.nwaitreaders ≠ 0 ∨ s.sys.nwaitwriters ≠ 0) (t : T) :
    pthreadRwlockDestroy s t = ({ s with sys := { s.sys with mutex := some t } }, .ebusy) := by
  rw [pthreadRwlockDestroy]
  exact if_pos hbusy

omit [Fintype T] in
theorem destroy_free (hfree : ¬(s.sys.refcount ≠ 0 ∨ s.sys.nwaitreaders ≠ 0 ∨ s.sys.nwaitwriters ≠ 0)) (t : T) :
    (pthreadRwlockDestroy s t).2 = .ok ↔ 0 < (s.sem .readers).value ∧ 0 < (s.sem .writers).value := by
  rw [pthreadRwlockDestroy]
  simp only [if_neg hfree]
  by_cases hr : 0 < (s.sem .readers).value
  · by_cases hw : 0 < (s.sem .writers).value
    · simp [rtSemTrytake, Lock.setSem, hr, hw]
    · simp [rtSemTrytake, Lock.setSem, hr, hw]
  · simp [rtSemTrytake, hr]

/-- In every state that calls lead to, the destruction does what it says exactly if the lock is not in use and
both condition variables have a token left. -/
theorem destroyed_iff {acts : List (Act T)} (hrun : exec step (init T) acts = some s) (hmutex : s.sys.mutex = none)
    (t : T) :
    DestroyedIfFree s t ↔ ¬Busy s.sys ∧ 0 < (s.sem .readers).value ∧ 0 < (s.sem .writers).value := by
  have h : Counted s.sys :=
    exec_inv (fun s => Counted s.sys) (fun _ _ _ hs hstep => counted_step hs hstep) init_counted hrun
  by_cases hbusy : Busy s.sys
  · refine iff_of_false (fun hd => ?_) fun hfree => hfree.1 hbusy
    have hsame := congrArg (fun r => r.1.sys.mutex) (hd.1 hbusy)
    rw [destroy_busy ((busy_iff h).mpr hbusy)] at hsame
    rw [show s.sys.mutex = none from hmutex] at hsame
    cases hsame
  · rw [DestroyedIfFree, destroy_free (mt (busy_iff h).mp hbusy) t]
    exact ⟨fun hd => ⟨hbusy, hd.2 hbusy⟩, fun hd => ⟨fun hb => absurd hb hbusy, fun _ => hd.2⟩⟩

/-- A writer that comes to its time leaves a token for writers behind, and a broadcast one for readers. -/
def bothTokens (a b c : T) : List (Act T) :=
  [.call a .wrlock, .lock a, .unlock a, .call b .timedwrlock, .lock b, .semTake b, .timeout b,
    .call a .unlock, .lock a, .unlock a, .relock b, .unlock b,
    .call a .wrlock, .lock a, .unlock a, .call c .rdlock, .lock c, .semTake c,
    .call a .unlock, .lock a, .unlock a, .relock c, .unlock c, .call c .unlock, .lock c, .unlock c]

theorem destroyed_iff_bothTokens :
    ∃ s, exec step (init (Fin 3)) (bothTokens 0 1 2) = some s ∧ DestroyedIfFree s 1 := by
  refine ⟨_, rfl, (@destroyed_iff (Fin 3) _ _ _ (bothTokens 0 1 2) rfl rfl 1).mpr ⟨?_, by decide, by decide⟩⟩
  rintro (hr | hw | ⟨t, cond, ht⟩)
  · exact hr rfl
  · exact hw rfl
  · fin_cases t <;> cases ht

/-- A lock that has never been used is not destroyed. -/
theorem fresh_lock_not_destroyed : ¬DestroyedIfFree (init Bool) false := by
  intro hd
  have hfree : ¬Busy (init Bool).sys := by
    rintro (hr | hw | ⟨t, cond, ht⟩)
    · exact hr rfl
    · exact hw rfl
    · cases ht
  cases hd.2 hfree

end Runs

end RtThread.Pthreads.RwlockDestroy
