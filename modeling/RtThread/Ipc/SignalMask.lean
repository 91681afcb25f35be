import RtThread.Ipc.SignalIntegrity

/-!
# Which masked signals are left alone (`signal.c:294-343`, `signal.c:400-474`)

`rt_thread_handle_sig` asks whether any pending signal is unmasked and then takes the first node of the queue,
whatever its signal is.
-/

namespace RtThread.Ipc.Signal

open RtThread.Lib.Chain RtThread.Lib.Flags RtThread.Lib.Places RtThread.Lib.Transition

variable {T : Type} {n : ℕ} {s s' : State T} {t : T}

/-- The thread and the signal of the handler that a step calls (`signal.c:321-326`). -/
def invoked (s : State T) : Act T → Option (T × ℕ)
  | .handle t =>
    match (s.thread t).siList, (s.thread t).sigVectors with
    | .node i, some vectors =>
      if vectors (s.si i).siSigno = .null then none else some (t, (s.si i).siSigno)
    | _, _ => none
  | _ => none

def waitedFor (s : State T) (a : Act T) (t : T) (i : ℕ) : Prop :=
  ∃ set, reachesDone s a = some (t, set) ∧ wanted s set i = true

/-- The node `i` is still in the queue of `t`, and its signal is pending. -/
def Stays (n : ℕ) (s s' : State T) (t : T) (i : ℕ) : Prop :=
  i ∈ queue n s' t ∧ (s'.si i).siSigno = (s.si i).siSigno ∧
    has (s'.thread t).sigPending (sigMask (s.si i).siSigno) = true

/-- The masked signals that are pending stay so, with their nodes in the queues, unless they are waited for. -/
def KeepsMasked (n : ℕ) (s s' : State T) (a : Act T) : Prop :=
  ∀ t, ∀ i ∈ queue n s t, has (s.thread t).sigPending (sigMask (s.si i).siSigno) = true →
    has (s.thread t).sigMask (sigMask (s.si i).siSigno) = false → waitedFor s a t i ∨ Stays n s s' t i

/-- A handler is called for an unmasked signal only, and the masked ones are kept. -/
def RespectsMask [DecidableEq T] (n : ℕ) (s : State T) (a : Act T) : Prop :=
  (∀ t signo, invoked s a = some (t, signo) → has (s.thread t).sigMask (sigMask signo) = true) ∧
    ∀ s', step n s a = some s' → KeepsMasked n s s' a

/-- What respects the masks. A handler is about to be called when the first node is that of an unmasked signal, or
of one that is not pending any more and has no handler; a handler returns when its signal has not been queued again,
unless that is unmasked or not pending any more; for the rest the steps are orderly. -/
def Gated (n : ℕ) (s : State T) : Act T → Prop
  | .append _ _ => True
  | .handle t => (s.thread t).sigVectors ≠ none ∧ ∀ i l, queue n s t = i :: l →
      has (s.thread t).sigMask (sigMask (s.si i).siSigno) = true ∨
        has (s.thread t).sigPending (sigMask (s.si i).siSigno) = false ∧ invoked s (.handle t) = none
  | .handled t => ∀ i signo handling, (s.thread t).handling = (i, signo) :: handling → signo ∈ signos n s t →
      has (s.thread t).sigMask (sigMask signo) = true ∨ has (s.thread t).sigPending (sigMask signo) = false
  | a => Orderly n s a

theorem Idle.gated {a : Act T} (h : Idle n s a) : Gated n s a := by
  cases a with
  | append t sig => trivial
  | handle t => exact h.elim
  | handled t => exact h.elim
  | _ => exact Idle.orderly h

theorem Astray.not_gated {a : Act T} (h : Astray n s a) : ¬ Gated n s a := by
  cases a with
  | append t sig =>
    obtain ⟨u, set, hreach, -⟩ := h
    cases hreach
  | handle t => exact fun hno => hno.1 h
  | handled t =>
    obtain ⟨u, set, hreach, -⟩ := h
    cases hreach
  | _ => exact Astray.not_orderly h

theorem gated_iff_orderly {a : Act T} {set : BitVec 32} (hreach : reachesDone s a = some (t, set)) :
    Gated n s a ↔ Orderly n s a := by
  cases a with
  | append t sig => cases hreach
  | handle t => cases hreach
  | handled t => cases hreach
  | _ => exact Iff.rfl

theorem invoked_eq_none {a : Act T} (h : ∀ t, a ≠ .handle t) : invoked s a = none := by
  cases a with
  | handle t => exact absurd rfl (h t)
  | _ => rfl

theorem lost_not_sound (hlost : s.lost = true) : ¬ Sound n s := by
  intro h
  rw [h.found] at hlost
  cases hlost

theorem invoked_cons (h : Sound n s) {i : ℕ} {l : List ℕ} (hq : queue n s t = i :: l)
    {vectors : ℕ → Sighandler} (hvectors : (s.thread t).sigVectors = some vectors) :
    invoked s (.handle t) =
      if vectors (s.si i).siSigno = .null then none else some (t, (s.si i).siSigno) := by
  have hfirst := (h.queued t).first
  rw [hq] at hfirst
  rw [invoked]
  simp only [hfirst, firstNode, hvectors]

variable [DecidableEq T]

theorem respectsMask_iff {a : Act T} (hstep : step n s a = some s') : RespectsMask n s a ↔
    (∀ t signo, invoked s a = some (t, signo) → has (s.thread t).sigMask (sigMask signo) = true) ∧
      KeepsMasked n s s' a := by
  refine and_congr_right fun _ => ⟨fun h => h s' hstep, fun h s'' hstep' => ?_⟩
  rw [hstep] at hstep'
  cases hstep'
  exact h

theorem respectsMask_iff_keeps {a : Act T} (hstep : step n s a = some s') (hinvoked : invoked s a = none) :
    RespectsMask n s a ↔ KeepsMasked n s s' a := by
  rw [respectsMask_iff hstep, and_iff_right]
  intro t signo hin
  rw [hinvoked] at hin
  cases hin

theorem taken_respects_iff (h : Sound n s) (hstep : step n s (.handle t) = some s') {i : ℕ} {l : List ℕ}
    (hq : queue n s t = i :: l) (hvectors : (s.thread t).sigVectors ≠ none)
    (hqueue : queue n s' = Function.update (queue n s) t l) (hsi : s'.si = s.si)
    (hpending : ∀ u, (s'.thread u).sigPending = (s.thread u).sigPending) :
    RespectsMask n s (.handle t) ↔ Gated n s (.handle t) := by
  obtain ⟨vectors, hsome⟩ := Option.ne_none_iff_exists'.mp hvectors
  have hnodup : (queue n s t).Nodup := h.located.nodup (.queue t)
  rw [hq] at hnodup
  have hinvoked := invoked_cons h hq hsome
  rw [respectsMask_iff hstep]
  constructor
  · rintro ⟨hcall, hkeeps⟩
    refine ⟨hvectors, fun j k hjk => ?_⟩
    rw [hq] at hjk
    cases hjk
    cases hmask : has (s.thread t).sigMask (sigMask (s.si i).siSigno) with
    | true => exact Or.inl rfl
    | false =>
      refine Or.inr ⟨?_, ?_⟩
      · refine Bool.eq_false_iff.mpr fun hp => ?_
        have hmem : i ∈ queue n s t := by
          rw [hq]
          exact List.mem_cons_self
        rcases hkeeps t i hmem hp hmask with ⟨set, hreach, -⟩ | ⟨hin, -⟩
        · cases hreach
        · rw [hqueue, Function.update_self] at hin
          exact (List.nodup_cons.mp hnodup).1 hin
      · cases hcase : invoked s (.handle t) with
        | none => rfl
        | some p =>
          have hp : p = (t, (s.si i).siSigno) := by
            rw [hinvoked, Option.ite_none_left_eq_some] at hcase
            exact (Option.some.inj hcase.2).symm
          have hon := hcall t (s.si i).siSigno (hp ▸ hcase)
          rw [hmask] at hon
          cases hon
  · rintro ⟨-, hgate⟩
    refine ⟨fun u signo hin => ?_, fun u j hj hp hmask => Or.inr ?_⟩
    · rcases hgate i l hq with hon | ⟨-, hnone⟩
      · rw [hinvoked, Option.ite_none_left_eq_some] at hin
        cases hin.2
        exact hon
      · rw [hnone] at hin
        cases hin
    · refine ⟨?_, by rw [hsi], by rw [hpending]; exact hp⟩
      by_cases hu : u = t
      · subst hu
        rw [hqueue, Function.update_self]
        rw [hq] at hj
        rcases List.mem_cons.mp hj with rfl | hj
        · rcases hgate j l hq with hon | ⟨hoff, -⟩
          · rw [hmask] at hon
            cases hon
          · rw [hp] at hoff
            cases hoff
        · exact hj
      · rw [hqueue, Function.update_of_ne hu]
        exact hj

theorem released_respects_iff (hstep : step n s (.handled t) = some s') {i signo : ℕ} {handling : List (ℕ × ℕ)}
    (hhandling : (s.thread t).handling = (i, signo) :: handling) (hqueue : queue n s' = queue n s)
    (hsi : s'.si = s.si) (hpending : ∀ u, (s'.thread u).sigPending =
      if u = t then (s.thread u).sigPending &&& ~~~sigMask signo else (s.thread u).sigPending) :
    RespectsMask n s (.handled t) ↔ Gated n s (.handled t) := by
  rw [respectsMask_iff_keeps hstep rfl]
  constructor
  · intro hkeeps j k hs hheq hin
    rw [hhandling] at hheq
    cases hheq
    obtain ⟨j, hj, rfl⟩ := List.mem_map.mp hin
    cases hmask : has (s.thread t).sigMask (sigMask (s.si j).siSigno) with
    | true => exact Or.inl rfl
    | false =>
      refine Or.inr (Bool.eq_false_iff.mpr fun hp => ?_)
      rcases hkeeps t j hj hp hmask with ⟨set, hreach, -⟩ | ⟨-, -, hp'⟩
      · cases hreach
      · rw [hpending, if_pos rfl, has_clear, decide_eq_false fun hne => hne rfl, Bool.and_false] at hp'
        cases hp'
  · intro hgate u j hj hp hmask
    refine Or.inr ⟨by rw [hqueue]; exact hj, by rw [hsi], ?_⟩
    rw [hpending]
    by_cases hu : u = t
    · subst hu
      have hne : (s.si j).siSigno ≠ signo := by
        rintro rfl
        rcases hgate i _ handling hhandling (List.mem_map_of_mem hj) with hon | hoff
        · rw [hmask] at hon
          cases hon
        · rw [hp] at hoff
          cases hoff
      rw [if_pos rfl, has_clear, hp, decide_eq_true hne]
      rfl
    · rw [if_neg hu]
      exact hp

theorem waited_keeps {a : Act T} {set : BitVec 32} {us vs : List ℕ} {i : ℕ} (hreach : reachesDone s a = some (t, set))
    (hq : queue n s t = us ++ i :: vs) (hi : wanted s set i = true)
    (hqueue : queue n s' = Function.update (queue n s) t (us ++ vs)) (hsi : s'.si = s.si)
    (hpending : ∀ u, (s'.thread u).sigPending =
      if u = t then (s.thread u).sigPending &&& ~~~sigMask (s.si i).siSigno else (s.thread u).sigPending) :
    KeepsMasked n s s' a := by
  intro u j hj hp hmask
  by_cases hu : u = t
  · subst hu
    by_cases hsigno : (s.si j).siSigno = (s.si i).siSigno
    · refine Or.inl ⟨set, hreach, ?_⟩
      rw [wanted, hsigno]
      exact hi
    · have hji : j ≠ i := by
        rintro rfl
        exact hsigno rfl
      refine Or.inr ⟨?_, by rw [hsi], ?_⟩
      · rw [hqueue, Function.update_self]
        rw [hq] at hj
        exact (List.mem_cons.mp (List.perm_middle.mem_iff.mp hj)).resolve_left hji
      · rw [hpending, if_pos rfl, has_clear, hp, decide_eq_true hsigno]
        rfl
  · refine Or.inr ⟨?_, by rw [hsi], ?_⟩
    · rw [hqueue, Function.update_of_ne hu]
      exact hj
    · rw [hpending, if_neg hu]
      exact hp

theorem step_respects_iff (h : Sound n s) {a : Act T} (hstep : step n s a = some s') :
    Sound n s' ∧ RespectsMask n s a ↔ Gated n s a := by
  have hnot : ∀ {P : Prop}, ¬ Sound n s' → (Sound n s' ∧ P ↔ False) :=
    fun hno => iff_false_intro fun hboth => hno hboth.1
  cases step_effect h hstep with
  | quiet hidle hquiet =>
    have hcall : invoked s a = none := invoked_eq_none fun t heq => by
      subst heq
      exact hidle
    refine iff_of_true ⟨hquiet.sound, (respectsMask_iff_keeps hstep hcall).mpr fun u i hi hp _ => ?_⟩ hidle.gated
    refine Or.inr ⟨?_, by rw [hquiet.si], hquiet.pending u _ hp⟩
    rw [hquiet.queue]
    exact hi
  | astray hastray hlost => exact (hnot (lost_not_sound hlost)).trans (iff_false_intro hastray.not_gated).symm
  | @appended t sig i pool _ hpool hsound hqueue hsi hpending =>
    refine iff_of_true ⟨hsound, (respectsMask_iff_keeps hstep rfl).mpr fun u j hj hp _ => ?_⟩ trivial
    have hji : j ≠ i := by
      rintro rfl
      exact h.alloc hpool u hj
    refine Or.inr ⟨?_, by rw [hsi, Function.update_of_ne hji], by rw [hpending]; exact hp⟩
    by_cases hu : u = t
    · subst hu
      rw [hqueue, Function.update_self]
      exact List.mem_append_left _ hj
    · rw [hqueue, Function.update_of_ne hu]
      exact hj
  | @taken t i l _ hq hvectors hsound hqueue hsi hpending =>
    rw [and_iff_right hsound]
    exact taken_respects_iff h hstep hq hvectors hqueue hsi hpending
  | @released t i signo handling _ hhandling hsound hqueue hsi hpending =>
    rw [and_iff_right hsound]
    exact released_respects_iff hstep hhandling hqueue hsi hpending
  | @waited _ t set us vs i _ hreach hq hus hi hnil hsound hqueue hsi hinfo hpending =>
    have hcall : invoked s a = none := invoked_eq_none fun t heq => by
      subst heq
      cases hreach
    have hkeeps := (respectsMask_iff_keeps hstep hcall).mpr (waited_keeps hreach hq hi hqueue hsi hpending)
    refine iff_of_true ⟨hsound, hkeeps⟩ ?_
    rw [gated_iff_orderly hreach, orderly_iff_waitFits hreach]
    exact waitFits_of_found hq hus hi hnil
  | @dangling _ t set i v vs _ hreach hq hi hsound =>
    refine (hnot hsound).trans (iff_false_intro ?_).symm
    rw [gated_iff_orderly hreach, orderly_iff_waitFits hreach]
    exact not_waitFits_of_first hq hi

/-- A run keeps the queues lists and respects the masks, exactly if all its steps are gated. -/
theorem masked_kept_iff (n : ℕ) (acts : List (Act T)) :
    AllStates (step n) (Sound n) (boot n) acts ∧ AllSteps (step n) (RespectsMask n) (boot n) acts ↔
      AllSteps (step n) (Gated n) (boot n) acts :=
  allStates_and_allSteps_iff (Sound n) (RespectsMask n) (Gated n) (fun _ _ _ h hstep => step_respects_iff h hstep) acts
    (boot_intact n).toSound

/-- The signal 1 is masked and queued first, the signal 2 is not masked: the handler of the first is called. -/
theorem masked_handler_invoked : ∃ s : State Unit,
    exec (step 32) (boot 32) [.install () 1 (.user 0), .unmask () 2, .kill () 1, .append () 1, .kill () 2,
      .append () 2] = some s ∧
      (step 32 s (.handle ())).isSome ∧ invoked s (.handle ()) = some ((), 1) ∧
      has (s.thread ()).sigMask (sigMask 1) = false ∧ ¬ RespectsMask 32 s (.handle ()) := by
  refine ⟨_, rfl, rfl, rfl, rfl, fun h => ?_⟩
  cases h.1 () 1 rfl

end RtThread.Ipc.Signal
