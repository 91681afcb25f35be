import RtThread.Clock.TimerRuns

/-!
# Which timers are linked

Without anything about the order of the timers: what a start, a stop and the loop of
`rt_timer_check` do to the rows as sets, and to the fields of the timers.
-/

namespace RtThread.Clock.Timer

open RtThread.Lib.SkipList

variable {T : Type*} [DecidableEq T]

/-- Each row has only timers of the next one, and none twice. -/
structure Nested (levels : ℕ) (s : State T) : Prop where
  subset : ∀ i, i + 1 < levels → s.row i ⊆ s.row (i + 1)
  nodup : ∀ i < levels, (s.row i).Nodup

/-- A check finds the timer due. -/
def State.due (s : State T) (t : T) : Prop := s.tick - (s.timer t).timeoutTick < halfMax

omit [DecidableEq T] in
instance (s : State T) (t : T) : Decidable (s.due t) := inferInstanceAs (Decidable (_ < _))

variable {levels : ℕ} {s s' : State T} {t u : T}

omit [DecidableEq T] in
theorem Inv.nested_rows {b : BitVec 32} {w : ℕ} (h : Inv levels b w s) : Nested levels s :=
  ⟨fun i hi => (h.nested i hi).subset, fun _ hi => h.nodup.sublist (sublist_bottom h.nested hi)⟩

omit [DecidableEq T] in
theorem Nested.bottom (h : Nested levels s) {i : ℕ} (hi : i < levels) : s.row i ⊆ s.row (levels - 1) := by
  induction hk : levels - 1 - i generalizing i with
  | zero => rw [show i = levels - 1 by omega]; exact fun _ hu => hu
  | succ k ih => exact fun u hu => ih (by omega) (by omega) (h.subset i (by omega) hu)

omit [DecidableEq T] in
theorem Nested.of_row (h : Nested levels s) (hrow : s'.row = s.row) : Nested levels s' := by
  constructor
  · rw [hrow]
    exact h.subset
  · rw [hrow]
    exact h.nodup

theorem Nested.remove (hlevels : 0 < levels) (h : Nested levels s) (t : T) : Nested levels (rtTimerRemove s t) ∧
    ∀ u, u ∈ (rtTimerRemove s t).row (levels - 1) ↔ u ≠ t ∧ u ∈ s.row (levels - 1) := by
  refine ⟨⟨fun i hi u hu => ?_, fun i hi => (h.nodup i hi).erase t⟩, fun u => ?_⟩
  · obtain ⟨hne, hmem⟩ := (h.nodup i (by omega)).mem_erase_iff.mp hu
    exact (h.nodup (i + 1) hi).mem_erase_iff.mpr ⟨hne, h.subset i hi hmem⟩
  · exact (h.nodup (levels - 1) (by omega)).mem_erase_iff

theorem Nested.not_mem_remove (h : Nested levels s) {i : ℕ} (hi : i < levels) (t : T) :
    t ∉ (rtTimerRemove s t).row i := (h.nodup i hi).not_mem_erase

/-- The rows after an insertion: from some row on, the timer is behind the position found in the row. -/
theorem linkTimer_rows (hlevels : 0 < levels) (mask : BitVec 32) (s : State T) (t : T) :
    ∃ m ≤ levels - 1, ∀ i < levels, (linkTimer levels mask s t).row i =
      if m ≤ i then insertAfter t (search (fun u => passes (s.timer t).timeoutTick (s.timer u).timeoutTick) s.row i)
        (s.row i)
      else s.row i := by
  obtain ⟨m, hm, heq⟩ := insertRows_eq mask
    (search (fun u => passes (s.timer t).timeoutTick (s.timer u).timeoutTick) s.row) t (levels - 1)
    (s.randomNr + 1) (Function.update s.row (levels - 1) (insertAfter t
      (search (fun u => passes (s.timer t).timeoutTick (s.timer u).timeoutTick) s.row (levels - 1))
      (s.row (levels - 1))))
  refine ⟨m, hm, fun i hi => ?_⟩
  simp only [linkTimer]
  rw [heq]
  by_cases hbot : i = levels - 1
  · subst hbot
    simp [hm]
  · simp only [Function.update_of_ne hbot, show i < levels - 1 by omega, and_true]

theorem Nested.link (hlevels : 0 < levels) (mask : BitVec 32) (h : Nested levels s) (ht : ∀ i < levels, t ∉ s.row i) :
    Nested levels (linkTimer levels mask s t) ∧
      (∀ u, u ∈ (linkTimer levels mask s t).row (levels - 1) ↔ u = t ∨ u ∈ s.row (levels - 1)) ∧
      ∀ i < levels, ((linkTimer levels mask s t).row i).erase t = s.row i := by
  obtain ⟨m, hm, hrow⟩ := linkTimer_rows hlevels mask s t
  have hperm : ∀ i < levels, (insertAfter t (search (fun u => passes (s.timer t).timeoutTick
      (s.timer u).timeoutTick) s.row i) (s.row i)).Perm (t :: s.row i) := fun i hi =>
    insertAfter_perm t fun p hp => search_mem h.subset hi hp
  refine ⟨⟨fun i hi u hu => ?_, fun i hi => ?_⟩, fun u => ?_, fun i hi => ?_⟩
  · rw [hrow i (by omega)] at hu
    rw [hrow (i + 1) hi]
    split at hu
    · rw [if_pos (by omega), (hperm (i + 1) hi).mem_iff]
      rw [(hperm i (by omega)).mem_iff] at hu
      exact List.mem_cons.mpr ((List.mem_cons.mp hu).imp_right fun hmem => h.subset i hi hmem)
    · split
      · rw [(hperm (i + 1) hi).mem_iff]
        exact List.mem_cons_of_mem t (h.subset i hi hu)
      · exact h.subset i hi hu
  · rw [hrow i hi]
    split
    · rw [(hperm i hi).nodup_iff]
      exact List.nodup_cons.mpr ⟨ht i hi, h.nodup i hi⟩
    · exact h.nodup i hi
  · rw [hrow (levels - 1) (by omega), if_pos hm, (hperm (levels - 1) (by omega)).mem_iff, List.mem_cons]
  · rw [hrow i hi]
    split
    · exact erase_insertAfter (ht i hi) _
    · exact List.erase_of_not_mem (ht i hi)

/-- What a start does. -/
structure Started (levels : ℕ) (s : State T) (t : T) (s' : State T) : Prop where
  nested : Nested levels s'
  tick : s'.tick = s.tick
  timer : s'.timer = Function.update s.timer t
    { s.timer t with timeoutTick := s.tick + (s.timer t).initTick, activated := true }
  linked : ∀ u, u ∈ s'.row (levels - 1) ↔ u = t ∨ u ∈ s.row (levels - 1)
  others : ∀ i < levels, (s'.row i).erase t = (s.row i).erase t

theorem rtTimerStart_eq (mask : BitVec 32) (s : State T) (t : T) : rtTimerStart levels mask s t =
    if (s.timer t).initTick < halfMax then
      some (linkTimer levels mask ((rtTimerRemove s t).setTimer t fun tm =>
        { tm.deactivate with timeoutTick := s.tick + tm.initTick }) t)
    else none := by
  simp only [rtTimerStart, setTimer_setTimer, setTimer_tick, setTimer_self]
  rfl

theorem rtTimerStart_isSome (mask : BitVec 32) (s : State T) (t : T) :
    (rtTimerStart levels mask s t).isSome = true ↔ (s.timer t).initTick < halfMax := by
  rw [rtTimerStart_eq]
  split <;> simp_all

theorem rtTimerStart_started (hlevels : 0 < levels) {mask : BitVec 32} (h : Nested levels s)
    (hs : rtTimerStart levels mask s t = some s') : Started levels s t s' := by
  rw [rtTimerStart_eq, Option.ite_none_right_eq_some, Option.some.injEq] at hs
  obtain ⟨-, rfl⟩ := hs
  obtain ⟨hremove, hmem⟩ := h.remove hlevels t
  have hset : Nested levels ((rtTimerRemove s t).setTimer t fun tm =>
      { tm.deactivate with timeoutTick := s.tick + tm.initTick }) := hremove.of_row rfl
  obtain ⟨hnested, hlinked, hothers⟩ := hset.link hlevels mask fun i hi => h.not_mem_remove hi t
  refine ⟨hnested, rfl, ?_, fun u => ?_, hothers⟩
  · simp [linkTimer, State.setTimer, rtTimerRemove, RtTimer.deactivate]
  · rw [hlinked]
    refine or_congr_right' fun hne => ?_
    exact (hmem u).trans (and_iff_right hne)

theorem checkLoop_due (mask : BitVec 32) (call : T → State T → State T) (fuel : ℕ) (s : State T) :
    checkLoop levels mask call (fuel + 1) s.tick s =
      match s.row (levels - 1) with
      | [] => some (s, [])
      | t :: _ =>
        if s.due t then
          (rearm levels mask (call t (rtTimerRemove s t)) t).bind fun s' =>
            (checkLoop levels mask call fuel (call t (rtTimerRemove s t)).tick s').map fun r => (r.1, t :: r.2)
        else some (s, []) := rfl

/-- A timer as `rt_timer_check` leaves it behind its timeout function. -/
def State.rearmed (s : State T) (t : T) : RtTimer :=
  if (s.timer t).periodic && (s.timer t).activated then
    { s.timer t with timeoutTick := s.tick + (s.timer t).initTick, activated := true }
  else (s.timer t).deactivate

structure Rearmed (levels : ℕ) (s : State T) (t : T) (s' : State T) : Prop where
  nested : Nested levels s'
  tick : s'.tick = s.tick
  timer : s'.timer = Function.update s.timer t (s.rearmed t)
  linked : ∀ u, u ∈ s'.row (levels - 1) ↔
    (u = t ∧ ((s.timer t).periodic && (s.timer t).activated) = true) ∨ u ∈ s.row (levels - 1)
  others : ∀ i < levels, (s'.row i).erase t = (s.row i).erase t

theorem rearm_rearmed (hlevels : 0 < levels) {mask : BitVec 32} (h : Nested levels s)
    (hs : rearm levels mask s t = some s') : Rearmed levels s t s' := by
  simp only [rearm] at hs
  split at hs
  · rename_i hper
    obtain ⟨hnested, htick, htimer, hlinked, hothers⟩ := rtTimerStart_started hlevels
      (h.of_row (setTimer_row RtTimer.deactivate)) hs
    refine ⟨hnested, htick, ?_, fun u => ?_, hothers⟩
    · rw [htimer, State.rearmed, if_pos hper]
      simp [State.setTimer, RtTimer.deactivate]
    · rw [hlinked, hper, and_iff_left rfl]
      rfl
  · rename_i hper
    cases hs
    refine ⟨h.of_row rfl, rfl, ?_, fun u => ?_, fun i _ => rfl⟩
    · rw [State.rearmed, if_neg hper]
      rfl
    · rw [or_iff_right fun hu => hper hu.2]
      rfl

end RtThread.Clock.Timer
