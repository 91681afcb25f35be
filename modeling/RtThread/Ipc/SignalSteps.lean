import RtThread.Ipc.SignalQueue

/-!
# What a step does to the signal queues

`step_effect` sorts the steps out of a sound state by what they do to the queues, to the pending signals
and to the pool.
-/

namespace RtThread.Ipc.Signal

open RtThread.Lib.Chain RtThread.Lib.Flags RtThread.Lib.Places RtThread.Lib.Transition

variable {T : Type} {n : ℕ} {s s' : State T} {t : T}

/-- The thread and the set of a call of `rt_signal_wait` that comes to `__done` in this step. -/
def reachesDone (s : State T) : Act T → Option (T × BitVec 32)
  | .wait t set _ => if has (s.thread t).sigPending set then some (t, set) else none
  | .resume t false => (s.thread t).waitSet.map fun set => (t, set)
  | _ => none

/-- The queues are as they were, and no pending signal has been cleared. -/
structure Quiet (n : ℕ) (s s' : State T) : Prop where
  sound : Sound n s'
  queue : queue n s' = queue n s
  si : s'.si = s.si
  pending : ∀ u m, has (s.thread u).sigPending m = true → has (s'.thread u).sigPending m = true

/-- When a step is quiet. -/
def Idle (n : ℕ) (s : State T) : Act T → Prop
  | .kill t sig => sigValid sig = true → has (s.thread t).sigPending (sigMask sig.toNat) = true → queue n s t = []
  | .append _ _ => s.pool = []
  | .handle _ => False
  | .handled _ => False
  | a => ∀ t set, reachesDone s a = some (t, set) → queue n s t = []

/-- When a pointer to something else is followed. -/
def Astray (n : ℕ) (s : State T) : Act T → Prop
  | .kill t sig =>
    sigValid sig = true ∧ has (s.thread t).sigPending (sigMask sig.toNat) = true ∧ queue n s t ≠ []
  | .handle t => (s.thread t).sigVectors = none
  | a => ∃ t set, reachesDone s a = some (t, set) ∧ queue n s t ≠ [] ∧ ∀ i ∈ queue n s t, wanted s set i = false

inductive Effect [DecidableEq T] (n : ℕ) (s : State T) : Act T → State T → Prop
  | quiet {a : Act T} {s' : State T} (hidle : Idle n s a) (hquiet : Quiet n s s') : Effect n s a s'
  | astray {a : Act T} {s' : State T} (hastray : Astray n s a) (hlost : s'.lost = true) : Effect n s a s'
  | appended {t : T} {sig i : ℕ} {pool : List ℕ} {s' : State T} (hpool : s.pool = i :: pool) (hsound : Sound n s')
      (hqueue : queue n s' = Function.update (queue n s) t (queue n s t ++ [i]))
      (hsi : s'.si = Function.update s.si i (killInfo sig))
      (hpending : ∀ u, (s'.thread u).sigPending = (s.thread u).sigPending) : Effect n s (.append t sig) s'
  | taken {t : T} {i : ℕ} {l : List ℕ} {s' : State T} (hq : queue n s t = i :: l)
      (hvectors : (s.thread t).sigVectors ≠ none) (hsound : Sound n s')
      (hqueue : queue n s' = Function.update (queue n s) t l) (hsi : s'.si = s.si)
      (hpending : ∀ u, (s'.thread u).sigPending = (s.thread u).sigPending) : Effect n s (.handle t) s'
  | released {t : T} {i signo : ℕ} {handling : List (ℕ × ℕ)} {s' : State T}
      (hhandling : (s.thread t).handling = (i, signo) :: handling) (hsound : Sound n s')
      (hqueue : queue n s' = queue n s) (hsi : s'.si = s.si)
      (hpending : ∀ u, (s'.thread u).sigPending =
        if u = t then (s.thread u).sigPending &&& ~~~sigMask signo else (s.thread u).sigPending) :
      Effect n s (.handled t) s'
  | waited {a : Act T} {t : T} {set : BitVec 32} {us vs : List ℕ} {i : ℕ} {s' : State T}
      (hreach : reachesDone s a = some (t, set)) (hq : queue n s t = us ++ i :: vs)
      (hus : ∀ j ∈ us, wanted s set j = false) (hi : wanted s set i = true) (hnil : us = [] → vs = [])
      (hsound : Sound n s') (hqueue : queue n s' = Function.update (queue n s) t (us ++ vs)) (hsi : s'.si = s.si)
      (hinfo : (s'.thread t).info = s.si i)
      (hpending : ∀ u, (s'.thread u).sigPending =
        if u = t then (s.thread u).sigPending &&& ~~~sigMask (s.si i).siSigno else (s.thread u).sigPending) :
      Effect n s a s'
  | dangling {a : Act T} {t : T} {set : BitVec 32} {i v : ℕ} {vs : List ℕ} {s' : State T}
      (hreach : reachesDone s a = some (t, set)) (hq : queue n s t = i :: v :: vs) (hi : wanted s set i = true)
      (hsound : ¬ Sound n s') : Effect n s a s'

theorem Quiet.refl (h : Sound n s) : Quiet n s s := ⟨h, rfl, rfl, fun _ _ hp => hp⟩

theorem Quiet.trans {s'' : State T} (h : Quiet n s s') (h' : Quiet n s' s'') : Quiet n s s'' :=
  ⟨h'.sound, h'.queue.trans h.queue, h'.si.trans h.si, fun u m hp => h'.pending u m (h.pending u m hp)⟩

theorem Quiet.killing (h : Sound n s) (killing : List (T × ℕ)) : Quiet n s { s with killing := killing } := by
  have found : State.lost { s with killing := killing } = false := h.found
  obtain ⟨hsound, hqueue⟩ := h.frame found rfl rfl (fun _ => rfl) fun _ => rfl
  exact ⟨hsound, hqueue, rfl, fun _ _ hp => hp⟩

variable [DecidableEq T]

theorem Quiet.set (h : Sound n s) {th : ThreadSig} (hlist : th.siList = (s.thread t).siList)
    (hhandling : th.handling = (s.thread t).handling)
    (hpending : ∀ m, has (s.thread t).sigPending m = true → has th.sigPending m = true) : Quiet n s (s.set t th) := by
  obtain ⟨hsound, hqueue⟩ := h.frame_set hlist hhandling
  refine ⟨hsound, hqueue, rfl, fun u m hp => ?_⟩
  by_cases hu : u = t
  · rw [hu] at hp ⊢
    rw [State.set_self]
    exact hpending m hp
  · rw [State.set_of_ne s hu]
    exact hp

theorem install_quiet (h : Sound n s) (signo : ℤ) (handler : Sighandler) :
    Quiet n s (rtSignalInstall s t signo handler).1 := by
  rw [rtSignalInstall]
  cases sigValid signo with
  | false => exact Quiet.refl h
  | true => exact Quiet.set h rfl rfl fun _ hp => hp

theorem kill_effect (h : Sound n s) (sig : ℤ) : Effect n s (.kill t sig) (rtThreadKill n s t sig) := by
  rw [rtThreadKill]
  cases hvalid : sigValid sig with
  | false => exact Effect.quiet (fun hv => by rw [hvalid] at hv; cases hv) (Quiet.refl h)
  | true =>
    have hfirst := (h.queued t).first
    cases hpending : has (s.thread t).sigPending (sigMask sig.toNat) with
    | false =>
      have hquiet : Quiet n s (s.set t { s.thread t with
          sigPending := (s.thread t).sigPending ||| sigMask sig.toNat }) :=
        Quiet.set h rfl rfl fun m hp => by rw [has_or, hp, Bool.true_or]
      simp only [if_true, hpending, Bool.false_eq_true, if_false]
      refine Effect.quiet (fun _ hp => by rw [hpending] at hp; cases hp) ?_
      exact hquiet.trans (Quiet.killing hquiet.sound _)
    | true =>
      simp only [if_true, hpending]
      cases hq : queue n s t with
      | nil =>
        rw [hq] at hfirst
        simp only [hfirst, firstNode]
        exact Effect.quiet (fun _ _ => hq) (Quiet.killing h _)
      | cons i l =>
        rw [hq] at hfirst
        simp only [hfirst, firstNode]
        exact Effect.astray ⟨hvalid, hpending, by rw [hq]; exact List.cons_ne_nil i l⟩ rfl

theorem append_effect (h : Sound n s) (sig : ℕ) (killing : List (T × ℕ)) :
    Effect n s (.append t sig) (killAppend n { s with killing := killing } t sig) := by
  have hquiet := Quiet.killing h killing
  by_cases hpool : s.pool = []
  · have happend : killAppend n { s with killing := killing } t sig = { s with killing := killing } := by
      rw [killAppend]
      simp only [hpool]
    rw [happend]
    exact Effect.quiet hpool hquiet
  · obtain ⟨i, pool, hpool⟩ := List.exists_cons_of_ne_nil hpool
    obtain ⟨hsound, hqueue, hsi, hthread⟩ := killAppend_spec hquiet.sound t sig hpool
    rw [hquiet.queue] at hqueue
    refine Effect.appended hpool hsound hqueue hsi fun u => ?_
    obtain ⟨l, hl⟩ := hthread u
    rw [hl]

theorem handle_effect (h : Sound n s) (hstep : rtThreadHandleSig s t = some s') : Effect n s (.handle t) s' := by
  obtain ⟨i, l, hq, hlost | ⟨hvectors, rfl⟩⟩ := rtThreadHandleSig_eq_some h hstep
  · exact Effect.astray hlost.1 hlost.2
  · obtain ⟨hsound, hqueue⟩ := h.take hq
    refine Effect.taken hq hvectors hsound hqueue rfl fun u => ?_
    by_cases hu : u = t
    · rw [hu, State.take, State.set_self]
    · rw [State.take, State.set_of_ne s hu]

theorem handled_effect (h : Sound n s) (hstep : handled s t = some s') : Effect n s (.handled t) s' := by
  obtain ⟨i, signo, handling, hhandling, rfl⟩ := handled_eq_some hstep
  obtain ⟨hsound, hqueue⟩ := h.release hhandling
  refine Effect.released hhandling hsound hqueue rfl fun u => ?_
  by_cases hu : u = t
  · rw [hu, State.release_self, if_pos rfl]
  · rw [State.release_of_ne s hu, if_neg hu]

/-- From `__done` on. Before it the call has changed other fields of its thread at most. -/
theorem done_effect (h : Sound n s) {th : ThreadSig} {set : BitVec 32} {a : Act T}
    (hreach : reachesDone s a = some (t, set)) (hlist : th.siList = (s.thread t).siList)
    (hhandling : th.handling = (s.thread t).handling) (hpending : th.sigPending = (s.thread t).sigPending)
    (hidle : queue n s t = [] → Idle n s a)
    (hastray : queue n s t ≠ [] → (∀ i ∈ queue n s t, wanted s set i = false) → Astray n s a) :
    Effect n s a (waitDone n (s.set t th) t set) := by
  have hquiet : Quiet n s (s.set t th) := Quiet.set h hlist hhandling fun m hp => by rw [hpending]; exact hp
  have hqueue : queue n (s.set t th) = queue n s := hquiet.queue
  cases hfind : (queue n s t).find? (wanted s set) with
  | none =>
    have hno : ∀ i ∈ queue n s t, wanted s set i = false :=
      fun i hi => Bool.eq_false_iff.mpr (List.find?_eq_none.mp hfind i hi)
    by_cases hnil : queue n s t = []
    · rw [waitDone_nil hquiet.sound set (by rw [hqueue, hnil])]
      exact Effect.quiet (hidle hnil) hquiet
    · refine Effect.astray (hastray hnil hno) ?_
      rw [← hqueue] at hnil hno
      exact waitDone_lost hquiet.sound hnil hno
  | some i =>
    obtain ⟨hi, us, vs, hq, hus⟩ := List.find?_eq_some_iff_append.mp hfind
    have hus' : ∀ j ∈ us, wanted s set j = false := fun j hj => by simpa using hus j hj
    have hq' : queue n (s.set t th) t = us ++ i :: vs := by rw [hqueue, hq]
    by_cases hnil : us = [] → vs = []
    · obtain ⟨hsound, hqueue', hsi, ⟨l, hself⟩, hother⟩ := waitDone_waited hquiet.sound hq' hus' hi hnil
      rw [hqueue] at hqueue'
      refine Effect.waited hreach hq hus' hi hnil hsound hqueue' hsi ?_ fun u => ?_
      · rw [hself]
        rfl
      · by_cases hu : u = t
        · rw [hu, hself, if_pos rfl, State.waited, State.set_self, hpending]
          rfl
        · rw [hother u hu, State.set_of_ne s hu, if_neg hu]
    · obtain ⟨rfl, hne⟩ := Classical.not_imp.mp hnil
      cases vs with
      | nil => exact absurd rfl hne
      | cons v vs => exact Effect.dangling hreach hq hi (waitDone_not_sound hquiet.sound hq' hi)

theorem wait_effect (h : Sound n s) (set : BitVec 32) (timeout : ℤ) :
    Effect n s (.wait t set timeout) (rtSignalWait n s t set timeout) := by
  have hnone : has (s.thread t).sigPending set = false → Idle n s (.wait t set timeout) := by
    intro hno u set' hr
    rw [reachesDone, hno] at hr
    cases hr
  rw [rtSignalWait]
  by_cases hset : set = 0
  · rw [if_pos hset]
    refine Effect.quiet (hnone ?_) (Quiet.refl h)
    rw [hset, has_zero_right]
  · rw [if_neg hset]
    cases hpending : has (s.thread t).sigPending set with
    | true =>
      have hreach : reachesDone s (.wait t set timeout) = some (t, set) := by
        rw [reachesDone, if_pos hpending]
      simp only [hpending, if_true]
      refine done_effect h hreach rfl rfl rfl (fun hq u set' hr => ?_) fun hne hno => ⟨t, set, hreach, hne, hno⟩
      rw [hreach] at hr
      cases hr
      exact hq
    | false =>
      simp only [hpending, Bool.false_eq_true, if_false]
      split
      · exact Effect.quiet (hnone hpending) (Quiet.set h rfl rfl fun _ hp => hp)
      · exact Effect.quiet (hnone hpending) (Quiet.set h rfl rfl fun _ hp => hp)

theorem resume_effect (h : Sound n s) (timedOut : Bool) (hstep : waitResumed n s t timedOut = some s') :
    Effect n s (.resume t timedOut) s' := by
  obtain ⟨set, hset, rfl⟩ := Option.map_eq_some_iff.mp hstep
  cases timedOut with
  | true =>
    refine Effect.quiet (fun u set' hr => ?_) (Quiet.set h rfl rfl fun _ hp => hp)
    cases hr
  | false =>
    have hreach : reachesDone s (.resume t false) = some (t, set) := by
      rw [reachesDone, hset]
      rfl
    refine done_effect h hreach rfl rfl rfl (fun hq u set' hr => ?_) fun hne hno => ⟨t, set, hreach, hne, hno⟩
    rw [hreach] at hr
    cases hr
    exact hq

theorem step_effect (h : Sound n s) {a : Act T} (hstep : step n s a = some s') : Effect n s a s' := by
  have hwaiting : ∀ {b : Bool} {x : State T}, (if b then some x else none) = some s' → s' = x := by
    intro b x hx
    cases b with
    | true => exact (Option.some.inj hx).symm
    | false => cases hx
  have hlost : ¬ s.lost = true := by
    rw [h.found]
    exact Bool.false_ne_true
  unfold step at hstep
  rw [if_neg hlost] at hstep
  cases a with
  | install t signo handler =>
    rw [hwaiting hstep]
    exact Effect.quiet (fun _ _ hr => by cases hr) (install_quiet h signo handler)
  | mask t signo =>
    rw [hwaiting hstep]
    exact Effect.quiet (fun _ _ hr => by cases hr) (Quiet.set h rfl rfl fun _ hp => hp)
  | unmask t signo =>
    rw [hwaiting hstep]
    exact Effect.quiet (fun _ _ hr => by cases hr) (Quiet.set h rfl rfl fun _ hp => hp)
  | kill t sig =>
    rw [← Option.some.inj hstep]
    exact kill_effect h sig
  | append t sig =>
    rw [Option.ite_none_right_eq_some] at hstep
    rw [← Option.some.inj hstep.2]
    exact append_effect h sig _
  | handle t => exact handle_effect h hstep
  | handled t => exact handled_effect h hstep
  | wait t set timeout =>
    rw [hwaiting hstep]
    exact wait_effect h set timeout
  | resume t timedOut => exact resume_effect h timedOut hstep

end RtThread.Ipc.Signal
