import RtThread.Ipc.MutexOwner
import RtThread.Ipc.Semaphore

/-!
# The counters of semaphores and mutexes

`rt_sem_release` increments a 16-bit `value` and a nested `rt_mutex_take` an 8-bit
`hold`, both without a range check. The results say exactly when that goes well.
-/

namespace RtThread.Ipc.Counters

open RtThread.Lib.Word RtThread.Lib.Transition RtThread.Ipc.Base

variable {T M : Type*} [DecidableEq T] [DecidableEq M]

def ReleaseFits (s : Semaphore.Sys T) : Prop :=
  s.sem.suspendThread ≠ [] ∨ s.sem.value + 1 < 2 ^ 16

theorem rtSemRelease_value_le_iff {s : Semaphore.Sys T} (h : Semaphore.Inv s) :
    s.sem.value ≤ (Semaphore.rtSemRelease s).sem.value ↔ ReleaseFits s := by
  unfold Semaphore.rtSemRelease ReleaseFits
  split
  · rename_i w rest hlist
    exact iff_of_true le_rfl (Or.inl (by simp [hlist]))
  · rename_i hlist
    rw [le_inc_iff h.value_lt (by decide)]
    simp [hlist]

/-- In every run a release keeps or adds tokens exactly if it finds a waiter or room in
`value`; and a run of mutex calls counts every take exactly (so that a thread with takes
that it has not released is the owner) exactly if each nested take finds room in `hold`. -/
theorem counters_exact_iff :
    (∀ (initial : ℕ) (flag : IpcFlag) (thread : T → Thread) (s0 s s' : Semaphore.Sys T) acts,
      Semaphore.rtSemInit initial flag thread = some s0 → exec Semaphore.step s0 acts = some s →
      Semaphore.step s .release = some s' → (s.sem.value ≤ s'.sem.value ↔ ReleaseFits s)) ∧
    (∀ (flag : M → IpcFlag) (thread : T → Thread) acts,
      AllStates Mutex.step Mutex.CountedExactly (Mutex.start flag thread) acts ↔
        AllSteps Mutex.step Mutex.NestingFits (Mutex.start flag thread) acts) ∧
    (∀ (s : Mutex.Sys T M), Mutex.CountedExactly s → ∀ t m, s.given t m < s.taken t m →
      (s.state.mutex m).owner = some t) := by
  refine ⟨?_, fun flag thread acts => ?_, fun s h t m ht => ((h m).owner_of_lt ht).1⟩
  · intro initial flag thread s0 s s' acts hinit hrun hs
    have hs' : s' = Semaphore.rtSemRelease s := (Option.some.inj hs).symm
    rw [hs']
    exact rtSemRelease_value_le_iff (Semaphore.run_inv hinit hrun)
  · exact allStates_iff_allSteps Mutex.Inv Mutex.CountedExactly Mutex.NestingFits
      (fun _ _ _ => Mutex.step_inv) (fun _ _ _ => Mutex.step_countedExactly_iff) acts
      (Mutex.start_inv flag thread) (Mutex.start_countedExactly flag thread)

/-- One token short of the limit the release is safe, and two nested takes are counted. -/
theorem counters_exact_below_limit :
    (∃ s0 s' : Semaphore.Sys ℕ,
      Semaphore.rtSemInit 65534 .fifo (fun t => rtThreadInit t) = some s0 ∧
      Semaphore.step s0 .release = some s' ∧ s0.sem.value ≤ s'.sem.value) ∧
    AllStates Mutex.step Mutex.CountedExactly
      (Mutex.start (fun _ : ℕ => .fifo) fun t : ℕ => rtThreadInit t) [.take 0 0 0, .take 0 0 0] := by
  refine ⟨⟨_, _, rfl, rfl, ?_⟩, ?_⟩
  · exact ((@counters_exact_iff ℕ ℕ _ _).1 65534 .fifo (fun t => rtThreadInit t) _ _ _ [] rfl rfl
      rfl).mpr (Or.inr (by decide))
  · refine (counters_exact_iff.2.1 _ _ _).mpr fun s₁ h₁ => ?_
    cases h₁
    refine ⟨nofun, fun s₂ h₂ => ?_⟩
    cases h₂
    exact ⟨fun _ => by decide, trivial⟩

theorem exec_take_again (t : T) (m : M) (n : ℕ) {s : Mutex.Sys T M} (hpc : s.hist.pc t = .idle)
    (ho : (s.state.mutex m).owner = some t) (hlt : (s.state.mutex m).hold < 2 ^ 8) :
    ∃ s', exec Mutex.step s (List.replicate n (.take t m 0)) = some s' ∧ s'.hist.pc t = .idle ∧
      s'.state.mutex m = { s.state.mutex m with hold := ((s.state.mutex m).hold + n) % 2 ^ 8 } ∧
      s'.taken t m = s.taken t m + n ∧ s'.given t m = s.given t m := by
  induction n generalizing s with
  | zero =>
    refine ⟨s, rfl, hpc, ?_, rfl, rfl⟩
    rw [Nat.add_zero, Nat.mod_eq_of_lt hlt]
  | succ n ih =>
    let s₁ : Mutex.Sys T M :=
      { s with state := (s.state.clear t).setMutex m (s.state.mutex m).again,
               hist := s.hist.pass, taken := Mutex.bump s.taken t m }
    have hs : Mutex.step s (.take t m 0) = some s₁ := by
      have ho' : ((s.state.setThread t fun th => { th with error := .eok }).mutex m).owner = some t := ho
      simp only [Mutex.step, if_pos hpc, Mutex.rtMutexTake, if_pos ho', Option.map_some]
      rfl
    have hm : s₁.state.mutex m = (s.state.mutex m).again := Mutex.setMutex_self ..
    obtain ⟨s', hrun, hpc', hmx, htaken, hgiven⟩ :=
      @ih s₁ hpc (by rw [hm]; exact ho) (by rw [hm]; exact inc_lt 8 _)
    refine ⟨s', exec_cons_eq_some.mpr ⟨s₁, hs, hrun⟩, hpc', ?_, ?_, hgiven⟩
    · rw [hmx, hm]
      simp only [Mutex.RtMutex.again, inc, Nat.mod_add_mod]
      rw [show (s.state.mutex m).hold + 1 + n = (s.state.mutex m).hold + (n + 1) by omega]
    · have hbump : s₁.taken t m = s.taken t m + 1 := by simp [s₁, Mutex.bump]
      omega

/-- A release of a semaphore initialised with the largest value leaves no token; and one
release after 257 takes frees the mutex, with 256 takes left to release. -/
theorem counters_wrap :
    (∃ s0 s' : Semaphore.Sys ℕ, Semaphore.rtSemInit 65535 .fifo (fun _ => ⟨0, 0, .eok, false⟩) = some s0 ∧
      Semaphore.step s0 .release = some s' ∧ s'.sem.value < s0.sem.value) ∧
    (∃ s : Mutex.Sys ℕ ℕ,
      exec Mutex.step (Mutex.start (fun _ => .fifo) fun _ => ⟨0, 0, .eok, false⟩)
        (List.replicate 257 (.take 0 0 0) ++ [.release 0 0]) = some s ∧
      s.given 0 0 < s.taken 0 0 ∧ (s.state.mutex 0).owner = none) := by
  refine ⟨⟨_, _, rfl, rfl, by decide⟩, ?_⟩
  have hfirst : ∃ s₁ : Mutex.Sys ℕ ℕ,
      Mutex.step (Mutex.start (fun _ => .fifo) fun _ => ⟨0, 0, .eok, false⟩) (.take 0 0 0) = some s₁ ∧
      s₁.hist.pc 0 = .idle ∧ s₁.state.mutex 0 = ⟨0, 0, 1, some 0, [], .fifo⟩ ∧
      s₁.taken 0 0 = 1 ∧ s₁.given 0 0 = 0 := ⟨_, rfl, rfl, rfl, rfl, rfl⟩
  obtain ⟨s₁, hs₁, hpc₁, hmx₁, htaken₁, hgiven₁⟩ := hfirst
  obtain ⟨s₂, hrun, hpc, hmx, htaken, hgiven⟩ :=
    exec_take_again 0 0 256 hpc₁ (by rw [hmx₁]) (by rw [hmx₁]; decide)
  rw [hmx₁] at hmx
  have hmx₂ : s₂.state.mutex 0 = ⟨0, 0, 1, some 0, [], .fifo⟩ := hmx
  obtain ⟨s₃, hs₃, hgiven₃, htaken₃, hmx₃⟩ : ∃ s₃, Mutex.step s₂ (.release 0 0) = some s₃ ∧
      s₃.given 0 0 = s₂.given 0 0 + 1 ∧ s₃.taken 0 0 = s₂.taken 0 0 ∧
      (s₃.state.mutex 0).owner = none := by
    simp [Mutex.step, hpc, Mutex.rtMutexRelease, hmx₂, dec, Mutex.Sys.recordRelease, Mutex.bump]
  refine ⟨s₃, ?_, by omega, hmx₃⟩
  rw [List.replicate_succ, List.cons_append]
  refine exec_cons_eq_some.mpr ⟨s₁, hs₁, ?_⟩
  rw [exec_append, hrun]
  exact exec_cons_eq_some.mpr ⟨s₃, hs₃, rfl⟩

end RtThread.Ipc.Counters
