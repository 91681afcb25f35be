import RtThread.Ipc.EventRuns

/-!
# A send before or after a receive (`ipc.c:1028-1236`)

`rt_event_send` stores the flags of a waiting thread in its `event_set` and clears them, `rt_event_recv` reads them
off the set and clears its whole request. For a thread that waits alone the two come to the same.
-/

namespace RtThread.Ipc.Event

open RtThread.Ipc.Base

variable {T : Type*} [DecidableEq T] {s s' : State T} {t : T} {option : BitVec 8} {want : BitVec 32} {timeout : ℤ}

/-! ### The set after a receive -/

/-- The set after a receiver has taken its flags. -/
def taken (option : BitVec 8) (want set : BitVec 32) : BitVec 32 :=
  if option &&& flagClear ≠ 0 then set &&& ~~~want else set

theorem and_not_and (set want : BitVec 32) : set &&& ~~~(set &&& want) = set &&& ~~~want := by
  refine BitVec.eq_of_getLsbD_eq fun i hi => ?_
  simp only [BitVec.getLsbD_and, BitVec.getLsbD_not, hi, decide_true, Bool.true_and]
  cases set.getLsbD i with
  | false => rfl
  | true => cases want.getLsbD i <;> rfl

theorem taken_and (option : BitVec 8) (want set : BitVec 32) :
    taken option (set &&& want) set = taken option want set := by
  unfold taken
  rw [and_not_and]

/-- A waiting thread whose condition holds is left the flags of its request that are set, with AND and with OR. -/
theorem examine_flags (h : (examine s t).2 = true) : (examine s t).1.eventSet t = s.event.set &&& s.eventSet t := by
  unfold examine at h ⊢
  split
  · rename_i hand
    rw [if_pos hand, decide_eq_true_iff] at h
    exact h.symm.trans (BitVec.and_comm _ _)
  · rename_i hand
    rw [if_neg hand] at h
    split
    · rename_i hor
      rw [if_pos hor] at h
      split
      · rw [BitVec.and_comm s.event.set]
        exact Function.update_self ..
      · rename_i hne
        rw [if_neg hne] at h
        cases h
    · rename_i hor
      rw [if_neg hor] at h
      cases h

theorem examine_iff (s : State T) (t : T) :
    (examine s t).2 = true ↔ satisfied (s.eventInfo t) (s.eventSet t) s.event.set := by
  constructor
  · intro h
    exact (examine_true h).1.1
  · intro h
    by_contra hnot
    exact (examine_false (Bool.eq_false_of_not_eq_true hnot)).2 h

/-! ### The receive first -/

theorem sendLoop_one (hlist : s.event.suspendThread = [t]) (hinfo : s.eventInfo t = option)
    (hwant : s.eventSet t = want) :
    (t ∉ (sendLoop [t] s).1.event.suspendThread ↔ satisfied option want s.event.set) ∧
      (satisfied option want s.event.set → (sendLoop [t] s).1.eventSet t = s.event.set &&& want ∧
        ((sendLoop [t] s).1.thread t).error = (s.thread t).error ∧
        (sendLoop [t] s).1.event.set = taken option want s.event.set) := by
  have hiff := examine_iff s t
  rw [hinfo, hwant] at hiff
  rw [← hiff]
  have hfst := examine_fst s t
  by_cases h : (examine s t).2 = true
  · have hflags := examine_flags h
    have hloop : (sendLoop [t] s).1 = resume (examine s t).1 t := by
      simp only [sendLoop, if_pos h]
    generalize (examine s t).1 = s₁ at hfst hflags hloop
    have hevent : s₁.event = s.event := by rw [hfst]
    have hinfo₁ : s₁.eventInfo t = option := by
      rw [hfst]
      exact hinfo
    have hthread : s₁.thread = s.thread := by rw [hfst]
    rw [hloop]
    refine ⟨iff_of_true ?_ h, fun _ => ⟨?_, ?_, ?_⟩⟩
    · simp [resume, hevent, hlist]
    · rw [← hwant]
      exact hflags
    · rw [resume_error, hthread]
    · calc (resume s₁ t).event.set = taken option (s₁.eventSet t) s.event.set := by
            simp only [resume, hevent, hinfo₁, taken]
        _ = taken option want s.event.set := by
            rw [hflags, hwant, taken_and]
  · have hsame := (examine_false (Bool.eq_false_of_not_eq_true h)).1
    refine ⟨iff_of_false ?_ h, fun hx => absurd hx h⟩
    simp [sendLoop, h, hsame, hlist]

/-! ### The send first -/

theorem rtEventSend_none (hnone : s.event.suspendThread = []) {m : BitVec 32} (hm : m ≠ 0) :
    (rtEventSend s m).1 = { s with event := { s.event with set := s.event.set ||| m } } := by
  unfold rtEventSend
  rw [if_neg hm]
  simp only [hnone, sendLoop]

theorem rtEventRecv_at_once (hwant : want ≠ 0) (hs : satisfied option want s.event.set) (time : ℤ) :
    ∃ s', rtEventRecv s t want option time = some (s', .received (s.event.set &&& want)) ∧
      s'.event.set = taken option want s.event.set := by
  have hoption : ¬(option &&& flagAnd = 0 ∧ option &&& flagOr = 0) := by
    rintro ⟨hand, hor⟩
    rw [satisfied, if_neg (not_not.mpr hand), if_neg (not_not.mpr hor)] at hs
    exact hs
  unfold rtEventRecv
  rw [if_neg hwant, if_neg hoption]
  simp only [if_pos hs]
  exact ⟨_, rfl, rfl⟩

/-- A receiver that blocks, and is then sent what it waits for, gets the same flags and leaves the same set as one
that receives after the send. -/
theorem send_recv_commute (hnone : s.event.suspendThread = [])
    (hblock : rtEventRecv s t want option timeout = some (s', .suspended)) (m : BitVec 32) :
    (t ∉ (rtEventSend s' m).1.event.suspendThread ↔ satisfied option want (s.event.set ||| m)) ∧
      (t ∉ (rtEventSend s' m).1.event.suspendThread → ∃ flags, ∀ time, ∃ s₂,
        rtEventRecvReturn (rtEventSend s' m).1 t = .received flags ∧
        rtEventRecv (rtEventSend s m).1 t want option time = some (s₂, .received flags) ∧
        s₂.event.set = (rtEventSend s' m).1.event.set) := by
  obtain ⟨hnot, hset, heset, hinfo, hlist, herr, -⟩ := rtEventRecv_suspended hblock
  have hwant : want ≠ 0 := by
    rintro rfl
    rw [rtEventRecv, if_pos rfl] at hblock
    cases hblock
  have hlist' : s'.event.suspendThread = [t] := by
    rw [hlist, hnone]
    exact List.perm_singleton.mp (rtIpcListSuspend_perm ..)
  have hinfo' : s'.eventInfo t = option := by rw [hinfo, Function.update_self]
  have hwant' : s'.eventSet t = want := by rw [heset, Function.update_self]
  by_cases hm : m = 0
  · have hor : s.event.set ||| m = s.event.set := by
      rw [hm]
      exact BitVec.or_zero
    have hin : t ∈ (rtEventSend s' m).1.event.suspendThread := by
      rw [rtEventSend, if_pos hm, hlist']
      exact List.mem_singleton_self t
    rw [hor]
    exact ⟨iff_of_false (not_not.mpr hin) hnot, fun hout => absurd hin hout⟩
  · obtain ⟨u, hu⟩ : ∃ u : State T, u = { s' with event := { s'.event with set := s'.event.set ||| m } } := ⟨_, rfl⟩
    have hloop : (rtEventSend s' m).1 = (sendLoop [t] u).1 := by
      rw [rtEventSend, if_neg hm, hu]
      simp only [hlist']
    obtain ⟨hiff, hone⟩ := @sendLoop_one T _ u t option want (by rw [hu]; exact hlist') (by rw [hu]; exact hinfo')
      (by rw [hu]; exact hwant')
    have hset' : u.event.set = s.event.set ||| m := by rw [hu, ← hset]
    have herr' : (u.thread t).error = .eok := by
      rw [hu]
      exact herr
    rw [hset'] at hiff hone
    rw [hloop]
    refine ⟨hiff, fun hout => ⟨(s.event.set ||| m) &&& want, fun time => ?_⟩⟩
    obtain ⟨hflags, herr₁, hset₁⟩ := hone (hiff.mp hout)
    obtain ⟨s₂, hrecv, hs₂⟩ := @rtEventRecv_at_once T _ { s with event := { s.event with set := s.event.set ||| m } }
      t option want hwant (hiff.mp hout) time
    rw [rtEventSend_none hnone hm]
    refine ⟨s₂, ?_, hrecv, hs₂.trans hset₁.symm⟩
    rw [rtEventRecvReturn, if_neg (not_not.mpr (herr₁.trans herr')), hflags]

/-- An OR receiver with `RT_EVENT_FLAG_CLEAR` waits for the flags 0 to 3, and the flags 1 and 4 are sent. -/
theorem send_recv_commute_clear :
    ∃ (s : State ℕ) (s' : State ℕ), rtEventRecv s 1 15 (flagOr ||| flagClear) (-1) = some (s', .suspended) ∧
      ∃ flags, ∀ time, ∃ s₂, rtEventRecvReturn (rtEventSend s' 18).1 1 = .received flags ∧
        rtEventRecv (rtEventSend s 18).1 1 15 (flagOr ||| flagClear) time = some (s₂, .received flags) ∧
        s₂.event.set = (rtEventSend s' 18).1.event.set := by
  obtain ⟨s, hs⟩ : ∃ s : State ℕ, s = rtEventInit .fifo (fun t => rtThreadInit t) (fun _ => 0) fun _ => 0 := ⟨_, rfl⟩
  have hset : s.event.set = 0 := by rw [hs, rtEventInit]
  have hnone : s.event.suspendThread = [] := by rw [hs, rtEventInit]
  obtain ⟨s', hs'⟩ : ∃ s', rtEventRecv s 1 15 (flagOr ||| flagClear) (-1) = some (s', .suspended) := by
    rw [hs]
    exact ⟨_, rfl⟩
  obtain ⟨hiff, hsame⟩ := send_recv_commute hnone hs' 18
  refine ⟨s, s', hs', hsame (hiff.mpr ?_)⟩
  rw [hset]
  decide

end RtThread.Ipc.Event
