import RtThread.Pthreads.Rwlock

/-!
# Suspended readers of a read-write lock (`pthread_rwlock.c`)

Readers wait while a writer holds the lock or waits for it. Every way in which the last waiting writer
leaves has to wake them; a `pthread_rwlock_timedwrlock` that comes to its time does not.
-/

namespace RtThread.Pthreads.Rwlock

open RtThread.Lib.Counting RtThread.Lib.Transition

variable {T : Type*} [DecidableEq T] [Fintype T]

/-- When the mutex is free and no thread is about to leave a condition wait, readers are suspended only
behind a writer that holds the lock or waits for it. -/
def NoneStranded (s : Sys T) : Prop :=
  s.mutex = none → (∀ u cond timed timedOut, s.place u ≠ .woken cond timed timedOut) →
    ∀ r timed, s.place r = .waiting .readers timed → s.writers ≠ [] ∨ ∃ w timed, s.place w = .waiting .writers timed

/-- A writer whose time has come is not the last one that waits, or the lock has a writer, or no reader
is suspended. -/
def Kept (s : Sys T) : Act T → Prop
  | .relock t => (∃ timed, s.place t = .woken .writers timed true) → s.nwaitwriters = 1 → 0 ≤ s.refcount →
      ∀ u, (s.place u).suspended .readers = false
  | _ => True

instance Kept.decidable (s : Sys T) : (a : Act T) → Decidable (Kept s a)
  | .relock t => inferInstanceAs (Decidable ((∃ timed, s.place t = .woken .writers timed true) →
      s.nwaitwriters = 1 → 0 ≤ s.refcount → ∀ u, (s.place u).suspended .readers = false))
  | .call _ _ | .lock _ _ | .spurious _ | .timeout _ | .unlock _ => isTrue trivial

/-- Readers are suspended only while the code holds them back. -/
def HeldBack (s : Sys T) : Prop := ∀ u, (s.place u).suspended .readers = true → s.refcount < 0 ∨ 0 < s.nwaitwriters

variable {s s' : Sys T} {t : T} {place : Place}

omit [Fintype T] in
theorem HeldBack.goto (h : HeldBack s) (hplace : s'.place = Function.update s.place t place)
    (hsuspended : place.suspended .readers = false) (hcount : s'.refcount = s.refcount)
    (hwait : s'.nwaitwriters = s.nwaitwriters) : HeldBack s' := by
  intro u hu
  rw [hcount, hwait]
  rcases eq_or_ne u t with rfl | hne
  · rw [hplace, Function.update_self, hsuspended] at hu
    cases hu
  · rw [hplace, Function.update_of_ne hne] at hu
    exact h u hu

omit [Fintype T] in
theorem HeldBack.rdlockLoop (h : HeldBack s) (timed : Bool) : HeldBack (rdlockLoop timed s t) := by
  unfold Rwlock.rdlockLoop
  split
  · rename_i hheld
    exact fun u _ => hheld
  · rename_i hfree
    intro u hu
    rcases eq_or_ne u t with rfl | hne
    · simp [Sys.goto, Place.suspended] at hu
    · simp only [Sys.goto, Function.update_of_ne hne] at hu
      exact absurd (h u hu) hfree

omit [Fintype T] in
theorem heldBack_wrlockLoop (timed : Bool) (hwait : 0 ≤ s.nwaitwriters) : HeldBack (wrlockLoop timed s t) := by
  unfold Rwlock.wrlockLoop
  split
  · exact fun u _ => Or.inr (Int.lt_add_one_of_le hwait)
  · exact fun u _ => Or.inl (by simp [Sys.goto])

omit [Fintype T] in
theorem HeldBack.tryrdlock (h : HeldBack s) : HeldBack (pthreadRwlockTryrdlock s t) := by
  unfold pthreadRwlockTryrdlock
  split
  · exact h.goto rfl rfl rfl rfl
  · rename_i hfree
    intro u hu
    rcases eq_or_ne u t with rfl | hne
    · simp [Sys.goto, Place.suspended] at hu
    · simp only [Sys.goto, Function.update_of_ne hne] at hu
      exact absurd (h u hu) hfree

omit [Fintype T] in
theorem HeldBack.trywrlock (h : HeldBack s) : HeldBack (pthreadRwlockTrywrlock s t) := by
  unfold pthreadRwlockTrywrlock
  split
  · exact h.goto rfl rfl rfl rfl
  · exact fun u _ => Or.inl (by simp [Sys.goto])

theorem signal_heldBack {chosen : Option T} (hwait : 0 < s.nwaitwriters) (hsignal : signal s chosen = some s') :
    HeldBack s' := by
  have hkept : s'.nwaitwriters = s.nwaitwriters := by
    unfold Rwlock.signal at hsignal
    split at hsignal
    · split at hsignal
      · cases hsignal
        rfl
      · cases hsignal
    · obtain ⟨-, he⟩ := Option.ite_none_right_eq_some.mp hsignal
      cases he
      rfl
  exact fun u _ => Or.inr (by rw [hkept]; exact hwait)

omit [DecidableEq T] [Fintype T] in
theorem broadcast_heldBack : HeldBack (broadcast s) := by
  intro u hu
  simp only [broadcast] at hu
  split at hu
  · cases hu
  · rename_i hp
    cases hplace : s.place u with
    | waiting cond timed =>
      rw [hplace] at hu hp
      cases cond with
      | readers => exact absurd rfl (hp timed)
      | writers => cases hu
    | _ =>
      rw [hplace] at hu
      cases hu

theorem unlock_heldBack (h : Counted s) (hp : s.place t = .locked) (hholds : t ∈ s.readers ∨ t ∈ s.writers)
    {chosen : Option T} (hunlock : pthreadRwlockUnlock s t chosen = some s') : HeldBack s' := by
  have hreleased := h.release hp hholds
  unfold pthreadRwlockUnlock at hunlock
  split at hunlock
  · rename_i hwait
    split at hunlock
    · exact signal_heldBack hwait hunlock
    · cases hunlock
      exact fun u _ => Or.inr hwait
  · split at hunlock
    · cases hunlock
      exact broadcast_heldBack
    · rename_i hnone
      cases hunlock
      intro u hu
      have hin : ((release s t).place u).inWait .readers = true := by
        cases hplace : (release s t).place u with
        | waiting cond timed =>
          rw [hplace] at hu
          exact hu
        | _ =>
          rw [hplace] at hu
          cases hu
      have hpos := count_pos hin
      have hcount := hreleased.nwaitreaders_eq
      omega

theorem section_heldBack (h : Counted s) (hheld : HeldBack s) (hp : s.place t = .locked) {op : Op}
    (hholds : op = .unlock → t ∈ s.readers ∨ t ∈ s.writers) {chosen : Option T}
    (hsection : rwlockSection op s t chosen = some s') : HeldBack s' := by
  have hwait : 0 ≤ s.nwaitwriters := by
    rw [h.nwaitwriters_eq]
    exact Int.natCast_nonneg _
  cases op with
  | rdlock =>
    cases hsection
    exact hheld.rdlockLoop false
  | tryrdlock =>
    cases hsection
    exact hheld.tryrdlock
  | timedrdlock =>
    cases hsection
    exact hheld.rdlockLoop true
  | wrlock =>
    cases hsection
    exact heldBack_wrlockLoop false hwait
  | trywrlock =>
    cases hsection
    exact hheld.trywrlock
  | timedwrlock =>
    cases hsection
    exact heldBack_wrlockLoop true hwait
  | unlock => exact unlock_heldBack h hp (hholds rfl) hsection

/-- A thread comes back from a condition wait: the readers stay held back unless it is the last writer,
and its time has come. -/
theorem afterWait_heldBack (h : Counted s) (hheld : HeldBack s) {cond : Cond} {timed timedOut : Bool}
    (hp : s.place t = .woken cond timed timedOut) (hkept : Kept s (.relock t)) :
    HeldBack (afterWait cond timed timedOut (Sys.goto { s with mutex := some t } t .locked) t) := by
  cases cond with
  | readers =>
    have hback : HeldBack (Sys.goto { s with nwaitreaders := s.nwaitreaders - 1, mutex := some t } t .locked) :=
      hheld.goto rfl rfl rfl rfl
    unfold Rwlock.afterWait
    simp only
    split
    · exact hback.goto rfl rfl rfl rfl
    · exact hback.rdlockLoop timed
  | writers =>
    have hpos : 0 < count (Place.inWait .writers) s.place := count_pos (t := t) (by rw [hp]; rfl)
    have hcount := h.nwaitwriters_eq
    unfold Rwlock.afterWait
    simp only
    split
    · rename_i hout
      subst hout
      intro u hu
      rcases eq_or_ne u t with rfl | hne
      · simp [Sys.goto, Place.suspended] at hu
      · simp only [Sys.goto, Function.update_of_ne hne] at hu ⊢
        by_contra hnone
        have hfree := hkept ⟨timed, hp⟩ (by omega) (by omega) u
        rw [hfree] at hu
        cases hu
    · exact heldBack_wrlockLoop timed (by simp only [Sys.goto]; omega)

theorem step_heldBack {a : Act T} (h : Counted s) (hheld : HeldBack s) (hkept : Kept s a)
    (hstep : step s a = some s') : HeldBack s' := by
  obtain ⟨t, op, -, hp, -, rfl⟩ | ⟨t, chosen, op, -, hp, -, hsection⟩ | ⟨t, cond, timed, timedOut, -, hp, rfl⟩ |
    ⟨t, cond, timed, timedOut, rfl, hp, -, rfl⟩ | ⟨t, result, -, hp, rfl⟩ := step_cases hstep
  · exact hheld.goto rfl rfl rfl rfl
  · refine section_heldBack (h.lock hp) (hheld.goto rfl rfl rfl rfl) (Function.update_self ..) (fun he => ?_) hsection
    rw [he] at hp
    exact h.unlocker t hp
  · exact hheld.goto rfl rfl rfl rfl
  · exact afterWait_heldBack h hheld hp hkept
  · exact hheld.goto rfl rfl rfl rfl

omit [DecidableEq T] in
theorem HeldBack.noneStranded (hheld : HeldBack s) (h : Counted s) : NoneStranded s := by
  intro _ hquiet r timed hr
  rcases hheld r (by rw [hr]; rfl) with hwriter | hwait
  · left
    rcases h.holders with ⟨-, hwriters, -⟩ | ⟨hcount, -⟩
    · exact List.ne_nil_of_length_pos (by omega)
    · omega
  · right
    rw [h.nwaitwriters_eq, Int.natCast_pos, Nat.pos_iff_ne_zero, Ne, count_eq_zero_iff, not_forall] at hwait
    obtain ⟨w, hw⟩ := hwait
    cases hplace : s.place w with
    | waiting cond timed =>
      rw [hplace] at hw
      cases cond with
      | readers => exact absurd rfl hw
      | writers => exact ⟨w, timed, hplace⟩
    | woken cond timed timedOut => exact absurd hplace (hquiet w cond timed timedOut)
    | _ =>
      rw [hplace] at hw
      exact absurd rfl hw

/-- In every run in which the last waiting writer comes to its time only while the lock has a writer or
no reader is suspended, no reader is stranded. -/
theorem rwlock_readers_not_stranded {as : List (Act T)} (hkept : AllSteps step Kept (pthreadRwlockInit T) as)
    (hrun : exec step (pthreadRwlockInit T) as = some s) : NoneStranded s := by
  have h : Counted s ∧ HeldBack s := by
    refine exec_inv_of_allSteps (fun s => Counted s ∧ HeldBack s) Kept ?_ ⟨init_counted, fun t ht => (by cases ht)⟩
      hkept hrun
    intro s a s' hs ha hstep
    exact ⟨hs.1.step hstep, step_heldBack hs.1 hs.2 ha hstep⟩
  exact h.2.noneStranded h.1

theorem rwlock_readers_not_stranded_timedOutWriter :
    ∃ s, exec step (pthreadRwlockInit Bool) timedOutWriter = some s ∧ NoneStranded s :=
  ⟨_, rfl, @rwlock_readers_not_stranded Bool _ _ _ timedOutWriter (by decide) rfl⟩

/-- A reader holds the lock, a writer waits for it, and another reader waits behind the writer, whose time
comes. -/
def strandedReader : List (Act (Option Bool)) :=
  [.call none .rdlock, .lock none none, .unlock none, .call (some false) .timedwrlock, .lock (some false) none,
    .call (some true) .rdlock, .lock (some true) none, .timeout (some false), .relock (some false),
    .unlock (some false)]

theorem timedwrlock_strands_reader :
    ∃ s, exec step (pthreadRwlockInit (Option Bool)) strandedReader = some s ∧ ¬NoneStranded s := by
  refine ⟨_, rfl, fun h => ?_⟩
  have hwaits := h rfl (by rintro (_ | _ | _) _ _ _ he <;> cases he) (some true) false rfl
  obtain hwriter | ⟨w, timed, hw⟩ := hwaits
  · exact hwriter rfl
  · rcases w with _ | _ | _ <;> cases hw

end RtThread.Pthreads.Rwlock
