import RtThread.Lib.Transition

/-!
# Barriers (`pthread_barrier.c`)

Every thread calls `pthread_barrier_wait` any number of times. The mutex excludes the others from the
section of a thread; a wait on the condition gives it back, and ends by a broadcast or spuriously. What
the threads have called and what was returned to them is recorded.
-/

namespace RtThread.Pthreads.Barrier

open RtThread.Lib.Transition

def EINVAL : ℤ := 22

/-- Where a thread stands in `pthread_barrier_wait`. -/
inductive Place where
  | out
  /-- before `pthread_mutex_lock` -/
  | called
  /-- in `pthread_cond_wait`, suspended -/
  | waiting
  /-- in `pthread_cond_wait`, before the mutex is locked again -/
  | woken
  /-- before `pthread_mutex_unlock` -/
  | unlocking (result : ℤ)
  deriving DecidableEq, Repr

/-- `pthread_barrier_t`, its threads and their history, the last result first. -/
structure Sys (T : Type*) where
  count : ℕ
  mutex : Option T
  place : T → Place
  calls : T → ℕ
  returned : T → List ℤ

/-- `pthread_barrier_init` (`pthread_barrier.c:67-82`). -/
def pthreadBarrierInit (T : Type*) (count : ℕ) : Sys T := ⟨count, none, fun _ => .out, fun _ => 0, fun _ => []⟩

variable {T : Type*} [DecidableEq T]

/-- `pthread_cond_broadcast`. -/
def broadcast (place : T → Place) (u : T) : Place := if place u = .waiting then .woken else place u

/-- The section of `pthread_barrier_wait` (`pthread_barrier.c:90-104`) of thread `t`, up to the condition
wait or to the unlocking. -/
def pthreadBarrierWait (s : Sys T) (t : T) : Sys T :=
  if s.count = 0 then { s with mutex := some t, place := Function.update s.place t (.unlocking EINVAL) }
  else
    let s := { s with count := s.count - 1 }
    if s.count = 0 then
      { s with mutex := some t, place := Function.update (broadcast s.place) t (.unlocking 0) }
    else { s with mutex := none, place := Function.update s.place t .waiting }

inductive Act (T : Type*) where
  | call (t : T)
  | enter (t : T)
  | spurious (t : T)
  | relock (t : T)
  | unlock (t : T)
  deriving DecidableEq, Repr

def step (s : Sys T) (a : Act T) : Option (Sys T) :=
  match a with
  | .call t =>
    if s.place t = .out then
      some { s with place := Function.update s.place t .called, calls := Function.update s.calls t (s.calls t + 1) }
    else none
  | .enter t => if s.place t = .called ∧ s.mutex = none then some (pthreadBarrierWait s t) else none
  | .spurious t => if s.place t = .waiting then some { s with place := Function.update s.place t .woken } else none
  | .relock t =>
    if s.place t = .woken ∧ s.mutex = none then
      some { s with mutex := some t, place := Function.update s.place t (.unlocking 0) }
    else none
  | .unlock t =>
    match s.place t with
    | .unlocking result =>
      some { s with
        mutex := none
        place := Function.update s.place t .out
        returned := Function.update s.returned t (result :: s.returned t) }
    | _ => none

/-- Every call has returned success, and no call has returned to a thread that is ahead of another one
in the number of its calls. -/
structure Reusable (s : Sys T) : Prop where
  success : ∀ t, ∀ result ∈ s.returned t, result = 0
  together : ∀ t u, (s.returned t).length ≤ s.calls u

/-- The section is entered for the first round only, and the condition wait returns when that is
complete. -/
def Kept (s : Sys T) : Act T → Prop
  | .enter _ => s.count ≠ 0
  | .relock _ => s.count = 0
  | _ => True

theorem step_cases {s s' : Sys T} {a : Act T} (h : step s a = some s') :
    (∃ t, a = .call t ∧ s.place t = .out ∧ s' = { s with
      place := Function.update s.place t .called, calls := Function.update s.calls t (s.calls t + 1) }) ∨
    (∃ t, a = .enter t ∧ s.place t = .called ∧ s.mutex = none ∧ s' = pthreadBarrierWait s t) ∨
    (∃ t, a = .spurious t ∧ s.place t = .waiting ∧ s' = { s with place := Function.update s.place t .woken }) ∨
    (∃ t, a = .relock t ∧ s.place t = .woken ∧ s.mutex = none ∧ s' = { s with
      mutex := some t, place := Function.update s.place t (.unlocking 0) }) ∨
    (∃ t result, a = .unlock t ∧ s.place t = .unlocking result ∧ s' = { s with
      mutex := none
      place := Function.update s.place t .out
      returned := Function.update s.returned t (result :: s.returned t) }) := by
  cases a with
  | call t =>
    obtain ⟨hp, he⟩ := Option.ite_none_right_eq_some.mp h
    exact Or.inl ⟨t, rfl, hp, (Option.some.inj he).symm⟩
  | enter t =>
    obtain ⟨⟨hp, hm⟩, he⟩ := Option.ite_none_right_eq_some.mp h
    exact Or.inr (Or.inl ⟨t, rfl, hp, hm, (Option.some.inj he).symm⟩)
  | spurious t =>
    obtain ⟨hp, he⟩ := Option.ite_none_right_eq_some.mp h
    exact Or.inr (Or.inr (Or.inl ⟨t, rfl, hp, (Option.some.inj he).symm⟩))
  | relock t =>
    obtain ⟨⟨hp, hm⟩, he⟩ := Option.ite_none_right_eq_some.mp h
    exact Or.inr (Or.inr (Or.inr (Or.inl ⟨t, rfl, hp, hm, (Option.some.inj he).symm⟩)))
  | unlock t =>
    simp only [step] at h
    split at h
    · rename_i result hp
      exact Or.inr (Or.inr (Or.inr (Or.inr ⟨t, result, rfl, hp, (Option.some.inj h).symm⟩)))
    · cases h

instance Kept.decidable (s : Sys T) : (a : Act T) → Decidable (Kept s a)
  | .enter _ => inferInstanceAs (Decidable (s.count ≠ 0))
  | .relock _ => inferInstanceAs (Decidable (s.count = 0))
  | .call _ | .spurious _ | .unlock _ => isTrue trivial

/-! ### The first round -/

variable [Fintype T] {s s' : Sys T} {a : Act T} {t : T}

/-- The threads that have not come to the barrier. -/
def absent (s : Sys T) : Finset T := Finset.univ.filter fun t => s.place t = .out ∨ s.place t = .called

omit [DecidableEq T] in
theorem mem_absent : t ∈ absent s ↔ s.place t = .out ∨ s.place t = .called := by
  rw [absent, Finset.mem_filter, and_iff_right (Finset.mem_univ t)]

/-- The round is not complete: `count` threads are missing, and nobody has left. -/
structure Open (s : Sys T) : Prop where
  pos : 0 < s.count
  card_eq : (absent s).card = s.count
  place : ∀ t, s.returned t = [] ∧ (s.place t = .out ∧ s.calls t = 0 ∨ s.place t = .called ∧ s.calls t = 1 ∨
    s.place t = .waiting ∧ s.calls t = 1 ∨ s.place t = .woken ∧ s.calls t = 1)

/-- All threads have come. -/
structure Complete (s : Sys T) : Prop where
  count_eq : s.count = 0
  called : ∀ t, 1 ≤ s.calls t
  place : ∀ t, s.returned t = [] ∧ (s.place t = .waiting ∨ s.place t = .woken ∨ s.place t = .unlocking 0) ∨
    s.returned t = [0] ∧ (s.place t = .out ∨ s.place t = .called)

theorem Open.enter (h : Open s) (hp : s.place t = .called) :
    Open (pthreadBarrierWait s t) ∨ Complete (pthreadBarrierWait s t) := by
  have hpos := h.pos
  have hcard := h.card_eq
  have ht : t ∈ absent s := mem_absent.mpr (Or.inr hp)
  unfold pthreadBarrierWait
  rw [if_neg hpos.ne']
  simp only
  split
  · rename_i hlast
    right
    have honly : ∀ u, u ≠ t → s.returned u = [] ∧ s.calls u = 1 ∧ (s.place u = .waiting ∨ s.place u = .woken) := by
      intro u hu
      have hnot : u ∉ absent s := fun hmem =>
        hu (Finset.card_le_one.mp (by omega) u hmem t ht)
      rw [mem_absent, not_or] at hnot
      obtain ⟨hreturned, ⟨hplace, -⟩ | ⟨hplace, -⟩ | ⟨hplace, hcalls⟩ | ⟨hplace, hcalls⟩⟩ := h.place u
      · exact absurd hplace hnot.1
      · exact absurd hplace hnot.2
      · exact ⟨hreturned, hcalls, Or.inl hplace⟩
      · exact ⟨hreturned, hcalls, Or.inr hplace⟩
    have hself : s.returned t = [] ∧ s.calls t = 1 := by
      obtain ⟨hreturned, hplace⟩ := h.place t
      simpa [hp, hreturned] using hplace
    refine ⟨hlast, fun u => ?_, fun u => ?_⟩
    · rcases eq_or_ne u t with rfl | hu
      · exact hself.2.ge
      · exact (honly u hu).2.1.ge
    · left
      rcases eq_or_ne u t with rfl | hu
      · exact ⟨hself.1, Or.inr (Or.inr (Function.update_self ..))⟩
      · obtain ⟨hreturned, -, hplace⟩ := honly u hu
        refine ⟨hreturned, Or.inr (Or.inl ?_)⟩
        simp only [Function.update_of_ne hu, broadcast]
        rcases hplace with hplace | hplace <;> simp [hplace]
  · rename_i hlast
    left
    have habsent : (absent s).erase t = Finset.univ.filter fun u =>
        Function.update s.place t .waiting u = .out ∨ Function.update s.place t .waiting u = .called := by
      ext u
      rw [Finset.mem_erase, mem_absent, Finset.mem_filter, and_iff_right (Finset.mem_univ u)]
      rcases eq_or_ne u t with rfl | hu
      · simp
      · rw [Function.update_of_ne hu]
        simp [hu]
    refine ⟨Nat.pos_of_ne_zero hlast, ?_, fun u => ?_⟩
    · simp only [absent]
      rw [← habsent, Finset.card_erase_of_mem ht, hcard]
    · obtain ⟨hreturned, hplace⟩ := h.place u
      refine ⟨hreturned, ?_⟩
      rcases eq_or_ne u t with rfl | hu
      · rw [hp] at hplace
        simpa using hplace
      · simp only [Function.update_of_ne hu]
        exact hplace

theorem Open.step (h : Open s) (hkept : Kept s a) (hstep : step s a = some s') : Open s' ∨ Complete s' := by
  have hsame : ∀ t place, (place = .out ∨ place = .called ↔ s.place t = .out ∨ s.place t = .called) →
      (Finset.univ.filter fun u => Function.update s.place t place u = .out ∨
        Function.update s.place t place u = .called).card = s.count := by
    intro t place hplace
    rw [← h.card_eq]
    congr 1
    ext u
    rw [mem_absent, Finset.mem_filter, and_iff_right (Finset.mem_univ u)]
    rcases eq_or_ne u t with rfl | hu
    · rw [Function.update_self, hplace]
    · rw [Function.update_of_ne hu]
  obtain ⟨t, rfl, hp, rfl⟩ | ⟨t, rfl, hp, -, rfl⟩ | ⟨t, rfl, hp, rfl⟩ | ⟨t, rfl, hp, -, rfl⟩ | ⟨t, result, rfl, hp, rfl⟩ :=
    step_cases hstep
  · left
    refine ⟨h.pos, hsame t _ (by simp [hp]), fun u => ?_⟩
    obtain ⟨hreturned, hplace⟩ := h.place u
    refine ⟨hreturned, ?_⟩
    rcases eq_or_ne u t with rfl | hu
    · rw [hp] at hplace
      simpa using hplace
    · simp only [Function.update_of_ne hu]
      exact hplace
  · exact h.enter hp
  · left
    obtain ⟨hreturned, hplace⟩ := h.place t
    rw [hp] at hplace
    refine ⟨h.pos, hsame t _ (by simp [hp]), ?_⟩
    rw [Function.forall_update_iff s.place fun u place => s.returned u = [] ∧ (place = .out ∧ s.calls u = 0 ∨
      place = .called ∧ s.calls u = 1 ∨ place = .waiting ∧ s.calls u = 1 ∨ place = .woken ∧ s.calls u = 1)]
    exact ⟨⟨hreturned, by simpa using hplace⟩, fun u _ => h.place u⟩
  · exact absurd hkept h.pos.ne'
  · obtain ⟨-, hplace⟩ := h.place t
    simp [hp] at hplace

omit [Fintype T] in
theorem Complete.wake (h : Complete s) (hp : s.place t = .waiting ∨ s.place t = .woken) {place : Place}
    (hplace : place = .woken ∨ place = .unlocking 0) (mutex : Option T) :
    Complete { s with mutex := mutex, place := Function.update s.place t place } := by
  refine ⟨h.count_eq, h.called, ?_⟩
  rw [Function.forall_update_iff s.place fun u place => s.returned u = [] ∧
    (place = .waiting ∨ place = .woken ∨ place = .unlocking 0) ∨ s.returned u = [0] ∧ (place = .out ∨ place = .called)]
  refine ⟨Or.inl ⟨?_, Or.inr hplace⟩, fun u _ => h.place u⟩
  rcases h.place t with ⟨hreturned, -⟩ | ⟨-, hout⟩
  · exact hreturned
  · rcases hp with hp | hp <;> simp [hp] at hout

omit [Fintype T] in
theorem Complete.step (h : Complete s) (hkept : Kept s a) (hstep : Barrier.step s a = some s') : Complete s' := by
  obtain ⟨t, rfl, hp, rfl⟩ | ⟨t, rfl, hp, -, rfl⟩ | ⟨t, rfl, hp, rfl⟩ | ⟨t, rfl, hp, -, rfl⟩ | ⟨t, result, rfl, hp, rfl⟩ :=
    step_cases hstep
  · refine ⟨h.count_eq, fun u => ?_, fun u => ?_⟩
    · rcases eq_or_ne u t with rfl | hu
      · simp
      · simp only [Function.update_of_ne hu]
        exact h.called u
    · have hplace := h.place u
      rcases eq_or_ne u t with rfl | hu
      · rw [hp] at hplace
        simpa using hplace
      · simp only [Function.update_of_ne hu]
        exact hplace
  · exact absurd h.count_eq hkept
  · exact h.wake (Or.inl hp) (Or.inl rfl) s.mutex
  · exact h.wake (Or.inr hp) (Or.inr rfl) (some t)
  · refine ⟨h.count_eq, h.called, fun u => ?_⟩
    have hplace := h.place u
    rcases eq_or_ne u t with rfl | hu
    · rw [hp] at hplace
      simp only [reduceCtorEq, false_or, or_self, and_false, or_false, Place.unlocking.injEq] at hplace
      obtain ⟨hreturned, rfl⟩ := hplace
      simp [hreturned]
    · simp only [Function.update_of_ne hu]
      exact hplace

omit [DecidableEq T] in
theorem Open.reusable (h : Open s) : Reusable s := by
  constructor
  · intro t result hmem
    rw [(h.place t).1] at hmem
    exact absurd hmem List.not_mem_nil
  · intro t u
    rw [(h.place t).1]
    exact Nat.zero_le _

omit [DecidableEq T] [Fintype T] in
theorem Complete.reusable (h : Complete s) : Reusable s := by
  constructor
  · intro t result hmem
    rcases h.place t with ⟨hreturned, -⟩ | ⟨hreturned, -⟩
    · rw [hreturned] at hmem
      exact absurd hmem List.not_mem_nil
    · rw [hreturned] at hmem
      exact List.mem_singleton.mp hmem
  · intro t u
    have hcalled := h.called u
    rcases h.place t with ⟨hreturned, -⟩ | ⟨hreturned, -⟩ <;> rw [hreturned]
    · exact Nat.zero_le _
    · exact hcalled

theorem init_open (T : Type*) [Fintype T] [Nonempty T] : Open (pthreadBarrierInit T (Fintype.card T)) := by
  refine ⟨Fintype.card_pos, ?_, fun t => ⟨rfl, Or.inl ⟨rfl, rfl⟩⟩⟩
  have habsent : absent (pthreadBarrierInit T (Fintype.card T)) = Finset.univ :=
    Finset.filter_true_of_mem fun t _ => Or.inl rfl
  rw [habsent]
  exact Finset.card_univ

/-- In every run in which nobody comes after the first round, and no waiter leaves before it is complete,
every call succeeds and waits for all threads. -/
theorem barrier_first_round [Nonempty T] {as : List (Act T)} {s : Sys T}
    (hkept : AllSteps step Kept (pthreadBarrierInit T (Fintype.card T)) as)
    (hrun : exec step (pthreadBarrierInit T (Fintype.card T)) as = some s) : Reusable s := by
  have hround : Open s ∨ Complete s := by
    refine exec_inv_of_allSteps (fun s => Open s ∨ Complete s) Kept ?_ (Or.inl (init_open T)) hkept hrun
    rintro s a s' (hopen | hcomplete) ha hstep
    · exact hopen.step ha hstep
    · exact Or.inr (hcomplete.step ha hstep)
  rcases hround with hopen | hcomplete
  · exact hopen.reusable
  · exact hcomplete.reusable

/-- Two threads: one waits for the other. -/
def firstRound : List (Act Bool) :=
  [.call false, .enter false, .call true, .enter true, .unlock true, .relock false, .unlock false, .call true]

theorem barrier_first_round_two : ∃ s, exec step (pthreadBarrierInit Bool (Fintype.card Bool)) firstRound = some s ∧
    s.returned false = [0] ∧ Reusable s :=
  ⟨_, rfl, rfl, @barrier_first_round Bool _ _ _ firstRound _ (by decide) rfl⟩

/-- The second round fails at once. -/
theorem second_round_fails : ∃ s, exec step (pthreadBarrierInit Bool (Fintype.card Bool))
    (firstRound ++ [.enter true, .unlock true]) = some s ∧ s.returned true = [EINVAL, 0] ∧ s.calls false = 1 :=
  ⟨_, rfl, rfl, rfl⟩

theorem spurious_return_leaves : ∃ s, exec step (pthreadBarrierInit Bool (Fintype.card Bool))
    [.call false, .enter false, .spurious false, .relock false, .unlock false] = some s ∧
      s.returned false = [0] ∧ s.calls true = 0 :=
  ⟨_, rfl, rfl, rfl⟩

end RtThread.Pthreads.Barrier
