import RtThread.Lib.Counting
import RtThread.Lib.Transition

/-!
# Read-write locks (`pthread_rwlock.c`)

Any number of threads lock and unlock. The mutex `rw_mutex` excludes the others from the section of a
thread; a condition wait gives it back and takes it again, and ends by a wake-up, spuriously or, for a
timed call, at its time. Which threads hold the lock is recorded: a thread is a reader once for each
read lock that it holds.
-/

namespace RtThread.Pthreads.Rwlock

open RtThread.Lib.Counting RtThread.Lib.Transition

inductive Op where
  | rdlock
  | tryrdlock
  | timedrdlock
  | wrlock
  | trywrlock
  | timedwrlock
  | unlock
  deriving DecidableEq, Repr

/-- The condition variables `rw_condreaders` and `rw_condwriters`. -/
inductive Cond where
  | readers
  | writers
  deriving DecidableEq, Repr

inductive Result where
  | ok
  | ebusy
  | etimedout
  deriving DecidableEq, Repr

/-- Where a thread stands in a call. -/
inductive Place where
  | out
  /-- before `pthread_mutex_lock` -/
  | called (op : Op)
  /-- with the mutex -/
  | locked
  /-- suspended in a condition wait -/
  | waiting (cond : Cond) (timed : Bool)
  /-- in a condition wait, before the mutex is locked again -/
  | woken (cond : Cond) (timed : Bool) (timedOut : Bool)
  /-- before `pthread_mutex_unlock` -/
  | unlocking (result : Result)
  deriving DecidableEq, Repr

/-- The thread is inside a wait on `cond`. -/
def Place.inWait (cond : Cond) : Place → Bool
  | .waiting c _ => c == cond
  | .woken c _ _ => c == cond
  | _ => false

def Place.suspended (cond : Cond) : Place → Bool
  | .waiting c _ => c == cond
  | _ => false

/-- `pthread_rwlock_t` with the threads and the holders of the lock. -/
structure Sys (T : Type*) where
  refcount : ℤ
  nwaitreaders : ℤ
  nwaitwriters : ℤ
  mutex : Option T
  place : T → Place
  readers : List T
  writers : List T

/-- `pthread_rwlock_init`. -/
def pthreadRwlockInit (T : Type*) : Sys T := ⟨0, 0, 0, none, fun _ => .out, [], []⟩

variable {T : Type*} [DecidableEq T]

def Sys.goto (s : Sys T) (t : T) (place : Place) : Sys T := { s with place := Function.update s.place t place }

/-- The loop of `pthread_rwlock_rdlock` and `pthread_rwlock_timedrdlock` up to the condition wait or the
unlocking of the mutex. -/
def rdlockLoop (timed : Bool) (s : Sys T) (t : T) : Sys T :=
  if s.refcount < 0 ∨ s.nwaitwriters > 0 then
    Sys.goto { s with nwaitreaders := s.nwaitreaders + 1, mutex := none } t (.waiting .readers timed)
  else Sys.goto { s with refcount := s.refcount + 1, readers := t :: s.readers } t (.unlocking .ok)

/-- The loop of `pthread_rwlock_wrlock` and `pthread_rwlock_timedwrlock`. -/
def wrlockLoop (timed : Bool) (s : Sys T) (t : T) : Sys T :=
  if s.refcount ≠ 0 then
    Sys.goto { s with nwaitwriters := s.nwaitwriters + 1, mutex := none } t (.waiting .writers timed)
  else Sys.goto { s with refcount := -1, writers := t :: s.writers } t (.unlocking .ok)

/-- `pthread_rwlock_rdlock` (`pthread_rwlock.c:125-156`). -/
def pthreadRwlockRdlock (s : Sys T) (t : T) : Sys T := rdlockLoop false s t

/-- `pthread_rwlock_timedrdlock` (`pthread_rwlock.c:182-214`). -/
def pthreadRwlockTimedrdlock (s : Sys T) (t : T) : Sys T := rdlockLoop true s t

/-- `pthread_rwlock_wrlock` (`pthread_rwlock.c:308-338`). -/
def pthreadRwlockWrlock (s : Sys T) (t : T) : Sys T := wrlockLoop false s t

/-- `pthread_rwlock_timedwrlock` (`pthread_rwlock.c:217-248`). -/
def pthreadRwlockTimedwrlock (s : Sys T) (t : T) : Sys T := wrlockLoop true s t

/-- `pthread_rwlock_tryrdlock` (`pthread_rwlock.c:159-179`). -/
def pthreadRwlockTryrdlock (s : Sys T) (t : T) : Sys T :=
  if s.refcount < 0 ∨ s.nwaitwriters > 0 then s.goto t (.unlocking .ebusy)
  else Sys.goto { s with refcount := s.refcount + 1, readers := t :: s.readers } t (.unlocking .ok)

/-- `pthread_rwlock_trywrlock` (`pthread_rwlock.c:251-271`). -/
def pthreadRwlockTrywrlock (s : Sys T) (t : T) : Sys T :=
  if s.refcount ≠ 0 then s.goto t (.unlocking .ebusy)
  else Sys.goto { s with refcount := -1, writers := t :: s.writers } t (.unlocking .ok)

/-- `pthread_cond_signal` on `rw_condwriters`: one of the suspended threads is woken, if there are any. -/
def signal [Fintype T] (s : Sys T) (chosen : Option T) : Option (Sys T) :=
  match chosen with
  | some u =>
    match s.place u with
    | .waiting .writers timed => some (s.goto u (.woken .writers timed false))
    | _ => none
  | none => if ∀ u, (s.place u).suspended .writers = false then some s else none

/-- `pthread_cond_broadcast` on `rw_condreaders`. -/
def broadcast (s : Sys T) : Sys T :=
  { s with place := fun u =>
      match s.place u with
      | .waiting .readers timed => .woken .readers timed false
      | place => place }

/-- The thread gives up a lock that it holds (`pthread_rwlock.c:287-290`). -/
def release (s : Sys T) (t : T) : Sys T :=
  Sys.goto { s with
    refcount := if s.refcount > 0 then s.refcount - 1 else if s.refcount = -1 then 0 else s.refcount
    readers := if t ∈ s.writers then s.readers else s.readers.erase t
    writers := s.writers.erase t } t (.unlocking .ok)

/-- `pthread_rwlock_unlock` (`pthread_rwlock.c:274-305`). -/
def pthreadRwlockUnlock [Fintype T] (s : Sys T) (t : T) (chosen : Option T) : Option (Sys T) :=
  if (release s t).nwaitwriters > 0 then
    if (release s t).refcount = 0 then signal (release s t) chosen else some (release s t)
  else if (release s t).nwaitreaders > 0 then some (broadcast (release s t))
  else some (release s t)

/-- The section of a call behind `pthread_mutex_lock`. -/
def rwlockSection [Fintype T] (op : Op) (s : Sys T) (t : T) (chosen : Option T) : Option (Sys T) :=
  match op with
  | .rdlock => some (pthreadRwlockRdlock s t)
  | .tryrdlock => some (pthreadRwlockTryrdlock s t)
  | .timedrdlock => some (pthreadRwlockTimedrdlock s t)
  | .wrlock => some (pthreadRwlockWrlock s t)
  | .trywrlock => some (pthreadRwlockTrywrlock s t)
  | .timedwrlock => some (pthreadRwlockTimedwrlock s t)
  | .unlock => pthreadRwlockUnlock s t chosen

/-- What follows a condition wait. -/
def afterWait (cond : Cond) (timed timedOut : Bool) (s : Sys T) (t : T) : Sys T :=
  match cond with
  | .readers =>
    let s := { s with nwaitreaders := s.nwaitreaders - 1 }
    if timedOut = true then s.goto t (.unlocking .etimedout) else rdlockLoop timed s t
  | .writers =>
    let s := { s with nwaitwriters := s.nwaitwriters - 1 }
    if timedOut = true then s.goto t (.unlocking .etimedout) else wrlockLoop timed s t

inductive Act (T : Type*) where
  | call (t : T) (op : Op)
  /-- `pthread_mutex_lock` and the section behind it; an unlocking signals `chosen` -/
  | lock (t : T) (chosen : Option T)
  | spurious (t : T)
  | timeout (t : T)
  | relock (t : T)
  | unlock (t : T)
  deriving DecidableEq, Repr

/-- A step of the system; a thread unlocks only when it holds the lock. -/
def step [Fintype T] (s : Sys T) (a : Act T) : Option (Sys T) :=
  match a with
  | .call t op =>
    if s.place t = .out ∧ (op = .unlock → t ∈ s.readers ∨ t ∈ s.writers) then some (s.goto t (.called op)) else none
  | .lock t chosen =>
    match s.place t with
    | .called op =>
      if s.mutex = none then rwlockSection op (Sys.goto { s with mutex := some t } t .locked) t chosen else none
    | _ => none
  | .spurious t =>
    match s.place t with
    | .waiting cond timed => some (s.goto t (.woken cond timed false))
    | _ => none
  | .timeout t =>
    match s.place t with
    | .waiting cond true => some (s.goto t (.woken cond true true))
    | _ => none
  | .relock t =>
    match s.place t with
    | .woken cond timed timedOut =>
      if s.mutex = none then some (afterWait cond timed timedOut (Sys.goto { s with mutex := some t } t .locked) t)
      else none
    | _ => none
  | .unlock t =>
    match s.place t with
    | .unlocking _ => some (Sys.goto { s with mutex := none } t .out)
    | _ => none

/-! ### Who holds the lock -/

/-- The reference count tells the holders of the lock. -/
def Holders (s : Sys T) : Prop :=
  s.refcount = -1 ∧ s.writers.length = 1 ∧ s.readers = [] ∨ s.refcount = s.readers.length ∧ s.writers = []

variable [Fintype T]

/-- The counters tell the holders of the lock and the threads in the condition waits. -/
structure Counted (s : Sys T) : Prop where
  holders : Holders s
  nwaitreaders_eq : s.nwaitreaders = count (Place.inWait .readers) s.place
  nwaitwriters_eq : s.nwaitwriters = count (Place.inWait .writers) s.place
  unlocker : ∀ t, s.place t = .called .unlock → t ∈ s.readers ∨ t ∈ s.writers

variable {s s' : Sys T} {t : T} {place : Place}

theorem Counted.goto (h : Counted s) (hholders : Holders s') (hplace : s'.place = Function.update s.place t place)
    (hr : s'.nwaitreaders = s.nwaitreaders + (if place.inWait .readers = true then 1 else 0) -
      (if (s.place t).inWait .readers = true then 1 else 0))
    (hw : s'.nwaitwriters = s.nwaitwriters + (if place.inWait .writers = true then 1 else 0) -
      (if (s.place t).inWait .writers = true then 1 else 0))
    (hunlock : place = .called .unlock → t ∈ s'.readers ∨ t ∈ s'.writers)
    (hkeep : ∀ u, u ≠ t → u ∈ s.readers ∨ u ∈ s.writers → u ∈ s'.readers ∨ u ∈ s'.writers) : Counted s' := by
  refine ⟨hholders, ?_, ?_, fun u hu => ?_⟩
  · rw [hplace, count_update, hr, h.nwaitreaders_eq]
  · rw [hplace, count_update, hw, h.nwaitwriters_eq]
  · rw [hplace] at hu
    rcases eq_or_ne u t with rfl | hne
    · rw [Function.update_self] at hu
      exact hunlock hu
    · rw [Function.update_of_ne hne] at hu
      exact hkeep u hne (h.unlocker u hu)

omit [DecidableEq T] in
theorem Counted.wake (h : Counted s) {place : T → Place} (hwait : ∀ cond u, (place u).inWait cond = (s.place u).inWait cond)
    (hcalled : ∀ u, place u = .called .unlock → s.place u = .called .unlock) : Counted { s with place := place } := by
  refine ⟨h.holders, ?_, ?_, fun u hu => h.unlocker u (hcalled u hu)⟩
  · rw [count_congr (hwait .readers)]
    exact h.nwaitreaders_eq
  · rw [count_congr (hwait .writers)]
    exact h.nwaitwriters_eq

theorem Counted.wakeOne (h : Counted s) {cond : Cond} {timed timedOut : Bool} (hp : s.place t = .waiting cond timed) :
    Counted (s.goto t (.woken cond timed timedOut)) := by
  refine h.wake (fun c u => ?_) fun u hu => ?_
  · rcases eq_or_ne u t with rfl | hne
    · rw [Function.update_self, hp]
      rfl
    · rw [Function.update_of_ne hne]
  · rcases eq_or_ne u t with rfl | hne
    · rw [Function.update_self] at hu
      cases hu
    · rwa [Function.update_of_ne hne] at hu

theorem Counted.signal (h : Counted s) {chosen : Option T} (hsignal : signal s chosen = some s') : Counted s' := by
  unfold Rwlock.signal at hsignal
  split at hsignal
  · split at hsignal
    · rename_i hp
      cases hsignal
      exact h.wakeOne hp
    · cases hsignal
  · obtain ⟨-, he⟩ := Option.ite_none_right_eq_some.mp hsignal
    cases he
    exact h

omit [DecidableEq T] in
theorem Counted.broadcast (h : Counted s) : Counted (broadcast s) := by
  refine h.wake (fun c u => ?_) fun u hu => ?_
  · split
    · rename_i hp
      rw [hp]
      rfl
    · rfl
  · split at hu
    · cases hu
    · exact hu

omit [DecidableEq T] [Fintype T] in
theorem Holders.addReader (h : Holders s) (hfree : ¬s.refcount < 0) :
    s.refcount + 1 = ((t :: s.readers).length : ℤ) ∧ s.writers = [] := by
  rcases h with ⟨hcount, -, -⟩ | ⟨hcount, hwriters⟩
  · omega
  · rw [List.length_cons]
    exact ⟨by omega, hwriters⟩

omit [DecidableEq T] [Fintype T] in
theorem Holders.addWriter (h : Holders s) (hfree : s.refcount = 0) : (t :: s.writers).length = 1 ∧ s.readers = [] := by
  rcases h with ⟨hcount, -, -⟩ | ⟨hcount, hwriters⟩
  · omega
  · rw [hwriters]
    exact ⟨rfl, List.eq_nil_of_length_eq_zero (by omega)⟩

theorem Counted.rdlockLoop (h : Counted s) (timed : Bool) (hp : s.place t = .locked) :
    Counted (rdlockLoop timed s t) := by
  unfold Rwlock.rdlockLoop
  split
  · exact h.goto h.holders rfl (by simp [Sys.goto, hp, Place.inWait]) (by simp [Sys.goto, hp, Place.inWait])
      (fun he => (by cases he)) fun u _ hu => hu
  · rename_i hfree
    exact h.goto (Or.inr (h.holders.addReader fun hlt => hfree (Or.inl hlt))) rfl
      (by simp [Sys.goto, hp, Place.inWait]) (by simp [Sys.goto, hp, Place.inWait])
      (fun he => (by cases he)) fun u _ hu => hu.imp_left (List.mem_cons_of_mem t)

theorem Counted.wrlockLoop (h : Counted s) (timed : Bool) (hp : s.place t = .locked) :
    Counted (wrlockLoop timed s t) := by
  unfold Rwlock.wrlockLoop
  split
  · exact h.goto h.holders rfl (by simp [Sys.goto, hp, Place.inWait]) (by simp [Sys.goto, hp, Place.inWait])
      (fun he => (by cases he)) fun u _ hu => hu
  · rename_i hfree
    exact h.goto (Or.inl ⟨rfl, h.holders.addWriter (not_not.mp hfree)⟩) rfl
      (by simp [Sys.goto, hp, Place.inWait]) (by simp [Sys.goto, hp, Place.inWait])
      (fun he => (by cases he)) fun u _ hu => hu.imp_right (List.mem_cons_of_mem t)

theorem Counted.refuse (h : Counted s) {result : Result} (hp : s.place t = .locked) :
    Counted (s.goto t (.unlocking result)) :=
  h.goto h.holders rfl (by simp [Sys.goto, hp, Place.inWait]) (by simp [Sys.goto, hp, Place.inWait])
    (fun he => (by cases he)) fun u _ hu => hu

theorem Counted.tryrdlock (h : Counted s) (hp : s.place t = .locked) : Counted (pthreadRwlockTryrdlock s t) := by
  unfold pthreadRwlockTryrdlock
  split
  · exact h.refuse hp
  · rename_i hfree
    exact h.goto (Or.inr (h.holders.addReader fun hlt => hfree (Or.inl hlt))) rfl
      (by simp [Sys.goto, hp, Place.inWait]) (by simp [Sys.goto, hp, Place.inWait])
      (fun he => (by cases he)) fun u _ hu => hu.imp_left (List.mem_cons_of_mem t)

theorem Counted.trywrlock (h : Counted s) (hp : s.place t = .locked) : Counted (pthreadRwlockTrywrlock s t) := by
  unfold pthreadRwlockTrywrlock
  split
  · exact h.refuse hp
  · rename_i hfree
    exact h.goto (Or.inl ⟨rfl, h.holders.addWriter (not_not.mp hfree)⟩) rfl
      (by simp [Sys.goto, hp, Place.inWait]) (by simp [Sys.goto, hp, Place.inWait])
      (fun he => (by cases he)) fun u _ hu => hu.imp_right (List.mem_cons_of_mem t)

omit [Fintype T] in
theorem Holders.release (h : Holders s) (hholds : t ∈ s.readers ∨ t ∈ s.writers) : Holders (release s t) := by
  rcases h with ⟨hcount, hwriters, hreaders⟩ | ⟨hcount, hwriters⟩
  · obtain ⟨w, hw⟩ := List.length_eq_one_iff.mp hwriters
    rw [hreaders, hw, or_iff_right List.not_mem_nil, List.mem_singleton] at hholds
    right
    simp [Rwlock.release, Sys.goto, hcount, hreaders, hw, hholds]
  · rw [hwriters, or_iff_left List.not_mem_nil] at hholds
    have hpos := List.length_pos_of_mem hholds
    right
    simp only [Rwlock.release, Sys.goto, hwriters, List.erase_nil, List.not_mem_nil, if_false]
    rw [List.length_erase_of_mem hholds, if_pos (by omega)]
    exact ⟨by omega, trivial⟩

theorem Counted.release (h : Counted s) (hp : s.place t = .locked) (hholds : t ∈ s.readers ∨ t ∈ s.writers) :
    Counted (release s t) := by
  refine h.goto (h.holders.release hholds) rfl (by simp [Rwlock.release, Sys.goto, hp, Place.inWait])
    (by simp [Rwlock.release, Sys.goto, hp, Place.inWait]) (fun he => (by cases he)) fun u hne hu => ?_
  refine hu.imp (fun hr => ?_) (List.mem_erase_of_ne hne).mpr
  simp only [Rwlock.release, Sys.goto]
  split
  · exact hr
  · exact (List.mem_erase_of_ne hne).mpr hr

theorem Counted.unlock (h : Counted s) (hp : s.place t = .locked) (hholds : t ∈ s.readers ∨ t ∈ s.writers)
    {chosen : Option T} (hunlock : pthreadRwlockUnlock s t chosen = some s') : Counted s' := by
  have hreleased := h.release hp hholds
  unfold pthreadRwlockUnlock at hunlock
  split at hunlock
  · split at hunlock
    · exact hreleased.signal hunlock
    · cases hunlock
      exact hreleased
  · split at hunlock
    · cases hunlock
      exact hreleased.broadcast
    · cases hunlock
      exact hreleased

theorem Counted.section (h : Counted s) (hp : s.place t = .locked) {op : Op}
    (hholds : op = .unlock → t ∈ s.readers ∨ t ∈ s.writers) {chosen : Option T}
    (hsection : rwlockSection op s t chosen = some s') : Counted s' := by
  cases op with
  | rdlock =>
    cases hsection
    exact h.rdlockLoop false hp
  | tryrdlock =>
    cases hsection
    exact h.tryrdlock hp
  | timedrdlock =>
    cases hsection
    exact h.rdlockLoop true hp
  | wrlock =>
    cases hsection
    exact h.wrlockLoop false hp
  | trywrlock =>
    cases hsection
    exact h.trywrlock hp
  | timedwrlock =>
    cases hsection
    exact h.wrlockLoop true hp
  | unlock => exact h.unlock hp (hholds rfl) hsection

theorem Counted.afterWait (h : Counted s) {cond : Cond} {timed timedOut : Bool}
    (hp : s.place t = .woken cond timed timedOut) :
    Counted (afterWait cond timed timedOut (Sys.goto { s with mutex := some t } t .locked) t) := by
  have hplace : Function.update s.place t .locked t = .locked := Function.update_self ..
  cases cond with
  | readers =>
    have hback : Counted (Sys.goto { s with nwaitreaders := s.nwaitreaders - 1, mutex := some t } t .locked) :=
      h.goto h.holders rfl (by simp [Sys.goto, hp, Place.inWait]) (by simp [Sys.goto, hp, Place.inWait])
        (fun he => (by cases he)) fun u _ hu => hu
    unfold Rwlock.afterWait
    simp only
    split
    · exact hback.refuse hplace
    · exact hback.rdlockLoop timed hplace
  | writers =>
    have hback : Counted (Sys.goto { s with nwaitwriters := s.nwaitwriters - 1, mutex := some t } t .locked) :=
      h.goto h.holders rfl (by simp [Sys.goto, hp, Place.inWait]) (by simp [Sys.goto, hp, Place.inWait])
        (fun he => (by cases he)) fun u _ hu => hu
    unfold Rwlock.afterWait
    simp only
    split
    · exact hback.refuse hplace
    · exact hback.wrlockLoop timed hplace

theorem step_cases {a : Act T} (h : step s a = some s') :
    (∃ t op, a = .call t op ∧ s.place t = .out ∧ (op = .unlock → t ∈ s.readers ∨ t ∈ s.writers) ∧
      s' = s.goto t (.called op)) ∨
    (∃ t chosen op, a = .lock t chosen ∧ s.place t = .called op ∧ s.mutex = none ∧
      rwlockSection op (Sys.goto { s with mutex := some t } t .locked) t chosen = some s') ∨
    (∃ t cond timed timedOut, (a = .spurious t ∨ a = .timeout t) ∧ s.place t = .waiting cond timed ∧
      s' = s.goto t (.woken cond timed timedOut)) ∨
    (∃ t cond timed timedOut, a = .relock t ∧ s.place t = .woken cond timed timedOut ∧ s.mutex = none ∧
      s' = afterWait cond timed timedOut (Sys.goto { s with mutex := some t } t .locked) t) ∨
    (∃ t result, a = .unlock t ∧ s.place t = .unlocking result ∧ s' = Sys.goto { s with mutex := none } t .out) := by
  cases a with
  | call t op =>
    obtain ⟨⟨hp, hholds⟩, he⟩ := Option.ite_none_right_eq_some.mp h
    exact Or.inl ⟨t, op, rfl, hp, hholds, (Option.some.inj he).symm⟩
  | lock t chosen =>
    simp only [step] at h
    split at h
    · rename_i op hp
      obtain ⟨hm, he⟩ := Option.ite_none_right_eq_some.mp h
      exact Or.inr (Or.inl ⟨t, chosen, op, rfl, hp, hm, he⟩)
    · cases h
  | spurious t =>
    simp only [step] at h
    split at h
    · rename_i cond timed hp
      exact Or.inr (Or.inr (Or.inl ⟨t, cond, timed, false, Or.inl rfl, hp, (Option.some.inj h).symm⟩))
    · cases h
  | timeout t =>
    simp only [step] at h
    split at h
    · rename_i cond hp
      exact Or.inr (Or.inr (Or.inl ⟨t, cond, true, true, Or.inr rfl, hp, (Option.some.inj h).symm⟩))
    · cases h
  | relock t =>
    simp only [step] at h
    split at h
    · rename_i cond timed timedOut hp
      obtain ⟨hm, he⟩ := Option.ite_none_right_eq_some.mp h
      exact Or.inr (Or.inr (Or.inr (Or.inl ⟨t, cond, timed, timedOut, rfl, hp, hm, (Option.some.inj he).symm⟩)))
    · cases h
  | unlock t =>
    simp only [step] at h
    split at h
    · rename_i result hp
      exact Or.inr (Or.inr (Or.inr (Or.inr ⟨t, result, rfl, hp, (Option.some.inj h).symm⟩)))
    · cases h

theorem Counted.lock (h : Counted s) {op : Op} (hp : s.place t = .called op) :
    Counted (Sys.goto { s with mutex := some t } t .locked) :=
  h.goto h.holders rfl (by simp [Sys.goto, hp, Place.inWait]) (by simp [Sys.goto, hp, Place.inWait])
    (fun he => (by cases he)) fun u _ hu => hu

theorem Counted.step {a : Act T} (h : Counted s) (hstep : step s a = some s') : Counted s' := by
  obtain ⟨t, op, -, hp, hholds, rfl⟩ | ⟨t, chosen, op, -, hp, -, hsection⟩ | ⟨t, cond, timed, timedOut, -, hp, rfl⟩ |
    ⟨t, cond, timed, timedOut, -, hp, -, rfl⟩ | ⟨t, result, -, hp, rfl⟩ := step_cases hstep
  · refine h.goto h.holders rfl (by simp [Sys.goto, hp, Place.inWait]) (by simp [Sys.goto, hp, Place.inWait])
      (fun he => ?_) fun u _ hu => hu
    cases he
    exact hholds rfl
  · refine (h.lock hp).section (Function.update_self ..) (fun he => ?_) hsection
    rw [he] at hp
    exact h.unlocker t hp
  · exact h.wakeOne hp
  · exact h.afterWait hp
  · exact h.goto h.holders rfl (by simp [Sys.goto, hp, Place.inWait]) (by simp [Sys.goto, hp, Place.inWait])
      (fun he => (by cases he)) fun u _ hu => hu

omit [DecidableEq T] in
theorem init_counted : Counted (pthreadRwlockInit T) := by
  have hzero : ∀ cond, count (Place.inWait cond) (pthreadRwlockInit T).place = 0 :=
    fun cond => count_eq_zero_iff.mpr fun t => rfl
  refine ⟨Or.inr ⟨rfl, rfl⟩, ?_, ?_, fun t ht => (by cases ht)⟩
  · rw [hzero]
    rfl
  · rw [hzero]
    rfl

/-- Whenever no thread is inside a section, and so whenever the mutex is free, the counters tell the
holders of the lock and the threads in the condition waits. -/
theorem rwlock_counts {as : List (Act T)} (hrun : exec step (pthreadRwlockInit T) as = some s) :
    (s.refcount = -1 ↔ s.writers.length = 1 ∧ s.readers = []) ∧
      (∀ n : ℕ, s.refcount = n ↔ s.readers.length = n ∧ s.writers = []) ∧
      s.nwaitreaders = count (Place.inWait .readers) s.place ∧
      s.nwaitwriters = count (Place.inWait .writers) s.place := by
  have h : Counted s := exec_inv Counted (fun s a s' h hstep => h.step hstep) init_counted hrun
  refine ⟨?_, fun n => ?_, h.nwaitreaders_eq, h.nwaitwriters_eq⟩
  · rcases h.holders with ⟨hcount, hwriters, hreaders⟩ | ⟨hcount, hwriters⟩
    · exact iff_of_true hcount ⟨hwriters, hreaders⟩
    · refine iff_of_false (by omega) fun ⟨hone, _⟩ => ?_
      rw [hwriters] at hone
      cases hone
  · rcases h.holders with ⟨hcount, hwriters, hreaders⟩ | ⟨hcount, hwriters⟩
    · refine iff_of_false (by omega) fun ⟨_, hnone⟩ => ?_
      rw [hnone] at hwriters
      cases hwriters
    · rw [hcount, Nat.cast_inj, and_iff_left hwriters]

/-- A reader holds the lock while a writer waits for it until its time. -/
def timedOutWriter : List (Act Bool) :=
  [.call false .rdlock, .lock false none, .unlock false, .call true .timedwrlock, .lock true none, .timeout true,
    .relock true, .unlock true]

theorem rwlock_counts_timedOutWriter : ∃ s, exec step (pthreadRwlockInit Bool) timedOutWriter = some s ∧
    ∀ n : ℕ, s.refcount = n ↔ s.readers.length = n ∧ s.writers = [] :=
  ⟨_, rfl, (@rwlock_counts Bool _ _ _ timedOutWriter rfl).2.1⟩

end RtThread.Pthreads.Rwlock
