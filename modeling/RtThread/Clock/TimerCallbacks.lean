import RtThread.Clock.TimerLinks

/-!
# Timeout functions that use the timers

A timeout function makes any calls of the timer functions, chosen from the state it finds and from the
number of the timeout functions called before it in the same check.
-/

namespace RtThread.Clock.Timer

open RtThread.Lib.SkipList RtThread.Lib.Transition

variable {T : Type*} [DecidableEq T]

inductive Call (T : Type*) where
  | start (t : T)
  | stop (t : T)
  | control (t : T) (cmd : Cmd)

variable (levels : ℕ) (mask : BitVec 32)

def Call.run (s : State T) : Call T → Option (State T)
  | .start t => rtTimerStart levels mask s t
  | .stop t => some (rtTimerStop s t).1
  | .control t cmd => some (rtTimerControl s t cmd).1

/-- The calls of the `n`th timeout function of a check, which is that of the timer `t`. -/
abbrev Body (T : Type*) := ℕ → T → State T → List (Call T)

/-- The removal of a timer that is due, and its timeout function (`timer.c:518-523`). -/
def called (body : Body T) (n : ℕ) (s : State T) (t : T) : Option (State T) :=
  exec (Call.run levels mask) (rtTimerRemove s t) (body n t (rtTimerRemove s t))

/-- One pass of the loop of `rt_timer_check` for a timer that is due (`timer.c:514-544`). -/
def fire (body : Body T) (n : ℕ) (s : State T) (t : T) : Option (State T) :=
  (called levels mask body n s t).bind fun s => rearm levels mask s t

/-- At most `k` passes of the loop of `rt_timer_check` (`timer.c:507-547`): the timers whose timeout functions are
called, and the state behind them, or none behind a failed assertion. -/
def checkPasses (body : Body T) : ℕ → ℕ → State T → List T × Option (State T)
  | 0, _, s => ([], some s)
  | k + 1, n, s =>
    match s.row (levels - 1) with
    | [] => ([], some s)
    | t :: _ =>
      if s.due t then
        match fire levels mask body n s t with
        | none => ([t], none)
        | some s' => (t :: (checkPasses body k (n + 1) s').1, (checkPasses body k (n + 1) s').2)
      else ([], some s)

/-- `rt_timer_check` (`timer.c:494-553`), when it ends within `k` passes. -/
def rtTimerCheckWith (body : Body T) (k : ℕ) (s : State T) : Option (State T) :=
  if (checkPasses levels mask body (k + 1) 0 s).1.length ≤ k then (checkPasses levels mask body (k + 1) 0 s).2 else none

/-- What holds of each pass: of the state before it, its timer, and the state behind the timeout function. -/
def AllPasses (P : State T → T → State T → Prop) (body : Body T) : ℕ → ℕ → State T → Prop
  | 0, _, _ => True
  | k + 1, n, s =>
    ∀ t ∈ (s.row (levels - 1)).head?, s.due t → ∀ s₁ ∈ called levels mask body n s t,
      P s t s₁ ∧ ∀ s' ∈ rearm levels mask s₁ t, AllPasses P body k (n + 1) s'

instance AllPasses.decidable (P : State T → T → State T → Prop) [∀ s t s₁, Decidable (P s t s₁)] (body : Body T) :
    (k n : ℕ) → (s : State T) → Decidable (AllPasses levels mask P body k n s)
  | 0, _, _ => isTrue trivial
  | k + 1, n, s =>
    have : ∀ s', Decidable (AllPasses levels mask P body k (n + 1) s') := AllPasses.decidable P body k (n + 1)
    inferInstanceAs (Decidable (∀ t ∈ (s.row (levels - 1)).head?, s.due t → ∀ s₁ ∈ called levels mask body n s t,
      P s t s₁ ∧ ∀ s' ∈ rearm levels mask s₁ t, AllPasses levels mask P body k (n + 1) s'))

/-- `setTick` is what `rt_tick_increase` and `rt_tick_set` do to the counter. -/
inductive Event (T : Type*) where
  | call (c : Call T)
  | setTick (tick : BitVec 32)
  | check (body : Body T) (k : ℕ)

def eventStep (s : State T) : Event T → Option (State T)
  | .call c => c.run levels mask s
  | .setTick tick => some { s with tick := tick }
  | .check body k => rtTimerCheckWith levels mask body k s

variable {levels : ℕ} {mask : BitVec 32} {s s' : State T} {t u : T} {body : Body T}

/-! ### The passes -/

theorem checkPasses_nil (k n : ℕ) (hrow : s.row (levels - 1) = []) :
    checkPasses levels mask body (k + 1) n s = ([], some s) := by
  rw [checkPasses, hrow]

variable {rest : List T}

theorem checkPasses_of_not_due (k n : ℕ) (hrow : s.row (levels - 1) = t :: rest) (hdue : ¬s.due t) :
    checkPasses levels mask body (k + 1) n s = ([], some s) := by
  rw [checkPasses, hrow]
  exact if_neg hdue

theorem checkPasses_of_none (k : ℕ) {n : ℕ} (hrow : s.row (levels - 1) = t :: rest) (hdue : s.due t)
    (hfire : fire levels mask body n s t = none) : checkPasses levels mask body (k + 1) n s = ([t], none) := by
  rw [checkPasses, hrow]
  simp only [if_pos hdue, hfire]

theorem checkPasses_of_some (k : ℕ) {n : ℕ} (hrow : s.row (levels - 1) = t :: rest) (hdue : s.due t)
    (hfire : fire levels mask body n s t = some s') : checkPasses levels mask body (k + 1) n s =
      (t :: (checkPasses levels mask body k (n + 1) s').1, (checkPasses levels mask body k (n + 1) s').2) := by
  rw [checkPasses, hrow]
  simp only [if_pos hdue, hfire]

theorem rearm_tick (hs : rearm levels mask s t = some s') : s'.tick = s.tick := by
  simp only [rearm] at hs
  split at hs
  · rw [rtTimerStart_eq, Option.ite_none_right_eq_some, Option.some.injEq] at hs
    rw [← hs.2]
    rfl
  · cases hs
    rfl

/-- When the calls of the timeout functions always succeed, the passes are those of the loop of `rt_timer_check`. -/
theorem checkLoop_eq_passes {call : T → State T → State T}
    (hcall : ∀ n s t, called levels mask body n s t = some (call t (rtTimerRemove s t))) (k n : ℕ) (s : State T) :
    checkLoop levels mask call (k + 1) s.tick s =
      if (checkPasses levels mask body (k + 1) n s).1.length ≤ k then
        (checkPasses levels mask body (k + 1) n s).2.map fun s' => (s', (checkPasses levels mask body (k + 1) n s).1)
      else none := by
  induction k generalizing n s with
  | zero =>
    rw [checkLoop_due]
    cases hrow : s.row (levels - 1) with
    | nil =>
      rw [checkPasses_nil 0 n hrow]
      rfl
    | cons t rest =>
      by_cases hdue : s.due t
      · simp only [if_pos hdue, checkLoop, Option.map_none]
        cases hfire : fire levels mask body n s t with
        | none =>
          rw [checkPasses_of_none 0 hrow hdue hfire]
          simp
        | some s' =>
          rw [checkPasses_of_some 0 hrow hdue hfire, if_neg (by simp)]
          cases rearm levels mask (call t (rtTimerRemove s t)) t <;> rfl
      · simp only [if_neg hdue]
        rw [checkPasses_of_not_due 0 n hrow hdue]
        rfl
  | succ k ih =>
    rw [checkLoop_due]
    cases hrow : s.row (levels - 1) with
    | nil =>
      rw [checkPasses_nil _ n hrow]
      rfl
    | cons t rest =>
      by_cases hdue : s.due t
      · simp only [if_pos hdue]
        have hfire : fire levels mask body n s t = rearm levels mask (call t (rtTimerRemove s t)) t := by
          rw [fire, hcall, Option.bind_some]
        cases hs' : rearm levels mask (call t (rtTimerRemove s t)) t with
        | none =>
          rw [checkPasses_of_none _ hrow hdue (hfire.trans hs')]
          simp
        | some s' =>
          rw [checkPasses_of_some _ hrow hdue (hfire.trans hs'), Option.bind_some, ← rearm_tick hs', ih (n + 1) s']
          simp only [List.length_cons, Nat.add_le_add_iff_right]
          split
          · rw [Option.map_map]
            rfl
          · rfl
      · simp only [if_neg hdue]
        rw [checkPasses_of_not_due _ n hrow hdue]
        rfl

theorem rtTimerCheckWith_nil (k : ℕ) (s : State T) : rtTimerCheckWith levels mask (fun _ _ _ => []) k s =
    (rtTimerCheck levels mask (fun _ s => s) (k + 1) s).map Prod.fst := by
  rw [rtTimerCheck, @checkLoop_eq_passes T _ levels mask (fun _ _ _ => []) (fun _ s => s) (fun _ _ _ => rfl) k 0 s,
    rtTimerCheckWith]
  split
  · rw [Option.map_map]
    exact Option.map_id'.symm
  · rfl

/-! ### The flag and the list -/

/-- The activated timers are those in the list, and `rt_timer_stop` unlinks any of them. -/
structure FlagsMatch (levels : ℕ) (s : State T) : Prop where
  activated_iff : ∀ t, (s.timer t).activated = true ↔ t ∈ s.row (levels - 1)
  stops : ∀ t ∈ s.row (levels - 1), (rtTimerStop s t).2 = .eok ∧ ∀ i < levels, t ∉ (rtTimerStop s t).1.row i

/-- A timer that its own timeout function leaves linked is periodic then. -/
def KeepsFlag (levels : ℕ) (_ : State T) (t : T) (s₁ : State T) : Prop := t ∈ s₁.row (levels - 1) → (s₁.timer t).periodic = true

/-- In a check no timeout function leaves its own timer started and one-shot. -/
def Kept (levels : ℕ) (mask : BitVec 32) (s : State T) : Event T → Prop
  | .check body k => AllPasses levels mask (KeepsFlag levels) body (k + 1) 0 s
  | _ => True

instance (s : State T) (t : T) (s₁ : State T) : Decidable (KeepsFlag levels s t s₁) :=
  inferInstanceAs (Decidable (_ → _))

instance (s : State T) : (e : Event T) → Decidable (Kept levels mask s e)
  | .call _ => isTrue trivial
  | .setTick _ => isTrue trivial
  | .check body k => AllPasses.decidable levels mask (KeepsFlag levels) body (k + 1) 0 s

/-- While the timeout function of `t` runs, the flag of `t` may be set though it is not linked. -/
structure Matched (levels : ℕ) (firing : Option T) (s : State T) : Prop where
  nested : Nested levels s
  activated : ∀ u, u ∈ s.row (levels - 1) → (s.timer u).activated = true
  linked : ∀ u, some u ≠ firing → (s.timer u).activated = true → u ∈ s.row (levels - 1)

variable {firing : Option T}

theorem Matched.flags (h : Matched levels none s) : FlagsMatch levels s := by
  refine ⟨fun t => ⟨h.linked t nofun, h.activated t⟩, fun t ht => ?_⟩
  unfold rtTimerStop
  rw [if_pos (h.activated t ht)]
  exact ⟨rfl, fun i hi => (h.nested.nodup i hi).not_mem_erase⟩

theorem Matched.start (hlevels : 0 < levels) (h : Matched levels firing s)
    (hs : rtTimerStart levels mask s t = some s') : Matched levels firing s' := by
  obtain ⟨hnested, -, htimer, hlinked, -⟩ := rtTimerStart_started hlevels h.nested hs
  refine ⟨hnested, fun u hu => ?_, fun u hf hu => ?_⟩
  · rw [htimer]
    by_cases hut : u = t
    · subst hut
      rw [Function.update_self]
    · rw [Function.update_of_ne hut]
      exact h.activated u (((hlinked u).mp hu).resolve_left hut)
  · rw [hlinked]
    by_cases hut : u = t
    · exact Or.inl hut
    · rw [htimer, Function.update_of_ne hut] at hu
      exact Or.inr (h.linked u hf hu)

theorem Matched.unlink (hlevels : 0 < levels) (h : Matched levels firing s) (t : T) :
    Matched levels firing ((rtTimerRemove s t).setTimer t RtTimer.deactivate) := by
  obtain ⟨hremove, hmem⟩ := h.nested.remove hlevels t
  refine ⟨hremove.of_row rfl, fun u hu => ?_, fun u hf hu => ?_⟩
  · obtain ⟨hut, hu'⟩ := (hmem u).mp hu
    rw [setTimer_of_ne hut]
    exact h.activated u hu'
  · by_cases hut : u = t
    · subst hut
      rw [setTimer_self] at hu
      cases hu
    · rw [setTimer_of_ne hut] at hu
      exact (hmem u).mpr ⟨hut, h.linked u hf hu⟩

theorem Matched.stop (hlevels : 0 < levels) (h : Matched levels firing s) (t : T) :
    Matched levels firing (rtTimerStop s t).1 := by
  unfold rtTimerStop
  split
  · exact h.unlink hlevels t
  · exact h

theorem Matched.control (h : Matched levels firing s) (t : T) (cmd : Cmd) :
    Matched levels firing (rtTimerControl s t cmd).1 := by
  have hkeep : ∀ u, ((rtTimerControl s t cmd).1.timer u).activated = (s.timer u).activated := by
    intro u
    simp only [rtTimerControl]
    by_cases hut : u = t
    · subst hut
      rw [setTimer_self]
      cases cmd <;> rfl
    · rw [setTimer_of_ne hut]
  refine ⟨h.nested.of_row rfl, fun u hu => ?_, fun u hf hu => ?_⟩
  · rw [hkeep]
    exact h.activated u hu
  · rw [hkeep] at hu
    exact h.linked u hf hu

theorem Matched.call (hlevels : 0 < levels) (h : Matched levels firing s) {c : Call T}
    (hs : c.run levels mask s = some s') : Matched levels firing s' := by
  cases c with
  | start t => exact h.start hlevels hs
  | stop t =>
    cases hs
    exact h.stop hlevels t
  | control t cmd =>
    cases hs
    exact h.control t cmd

theorem Matched.remove (hlevels : 0 < levels) (h : Matched levels none s) (t : T) :
    Matched levels (some t) (rtTimerRemove s t) := by
  obtain ⟨hremove, hmem⟩ := h.nested.remove hlevels t
  refine ⟨hremove, fun u hu => h.activated u ((hmem u).mp hu).2, fun u hf hu => ?_⟩
  exact (hmem u).mpr ⟨fun he => hf (he ▸ rfl), h.linked u nofun hu⟩

theorem Matched.called (hlevels : 0 < levels) (h : Matched levels none s) {n : ℕ} {s₁ : State T}
    (hs : called levels mask body n s t = some s₁) : Matched levels (some t) s₁ :=
  exec_inv (Matched levels (some t)) (fun _ _ _ hm hstep => hm.call hlevels hstep) (h.remove hlevels t) hs

theorem Matched.rearm (hlevels : 0 < levels) (h : Matched levels (some t) s) (hkeep : KeepsFlag levels s t s)
    (hs : rearm levels mask s t = some s') : Matched levels none s' := by
  have hr := rearm_rearmed hlevels h.nested hs
  refine ⟨hr.nested, fun u hu => ?_, fun u _ hu => ?_⟩
  · rw [hr.timer]
    rw [hr.linked] at hu
    by_cases hut : u = t
    · subst hut
      have hre : ((s.timer u).periodic && (s.timer u).activated) = true := by
        rcases hu with ⟨-, hre⟩ | hrow
        · exact hre
        · rw [hkeep hrow, h.activated u hrow]
          rfl
      rw [Function.update_self, State.rearmed, if_pos hre]
    · rw [Function.update_of_ne hut]
      exact h.activated u (hu.resolve_left fun he => hut he.1)
  · rw [hr.linked]
    rw [hr.timer] at hu
    by_cases hut : u = t
    · subst hut
      rw [Function.update_self, State.rearmed] at hu
      split at hu
      · rename_i hre
        exact Or.inl ⟨rfl, hre⟩
      · cases hu
    · rw [Function.update_of_ne hut] at hu
      exact Or.inr (h.linked u (fun he => hut (Option.some.inj he)) hu)

theorem Matched.passes (hlevels : 0 < levels) (h : Matched levels none s) (k n : ℕ)
    (hkeep : AllPasses levels mask (KeepsFlag levels) body k n s)
    (hs : (checkPasses levels mask body k n s).2 = some s') : Matched levels none s' := by
  induction k generalizing n s with
  | zero =>
    cases hs
    exact h
  | succ k ih =>
    cases hrow : s.row (levels - 1) with
    | nil =>
      rw [checkPasses_nil k n hrow] at hs
      cases hs
      exact h
    | cons t rest =>
      by_cases hdue : s.due t
      · cases hfire : fire levels mask body n s t with
        | none =>
          rw [checkPasses_of_none k hrow hdue hfire] at hs
          cases hs
        | some s₂ =>
          rw [checkPasses_of_some k hrow hdue hfire] at hs
          obtain ⟨s₁, hs₁, hs₂⟩ := Option.bind_eq_some_iff.mp hfire
          obtain ⟨hflag, hrest⟩ := hkeep t (by rw [hrow]; rfl) hdue s₁ hs₁
          exact ih ((h.called hlevels hs₁).rearm hlevels hflag hs₂) (n + 1) (hrest s₂ hs₂) hs
      · rw [checkPasses_of_not_due k n hrow hdue] at hs
        cases hs
        exact h

theorem Matched.event (hlevels : 0 < levels) (h : Matched levels none s) {e : Event T} (hkept : Kept levels mask s e)
    (hs : eventStep levels mask s e = some s') : Matched levels none s' := by
  cases e with
  | call c => exact h.call hlevels hs
  | setTick tick =>
    cases hs
    exact ⟨h.nested.of_row rfl, h.activated, h.linked⟩
  | check body k =>
    obtain ⟨-, hpasses⟩ := Option.ite_none_right_eq_some.mp hs
    exact h.passes hlevels (k + 1) 0 hkept hpasses

/-! ### Every run -/

/-- In every run in which no timeout function leaves its own timer started and one-shot, the flags match the list
whenever no check is going on. -/
theorem timer_flags_match (hlevels : 0 < levels) (mask tick : BitVec 32) (time : T → BitVec 32) (periodic : T → Bool)
    {events : List (Event T)}
    (hkept : AllSteps (eventStep levels mask) (Kept levels mask)
      (rtSystemTimerInit tick fun t => rtTimerInit (time t) (periodic t)) events) :
    AllStates (eventStep levels mask) (FlagsMatch levels)
      (rtSystemTimerInit tick fun t => rtTimerInit (time t) (periodic t)) events := by
  have hinit : Matched levels none (rtSystemTimerInit tick fun t => rtTimerInit (time t) (periodic t)) := by
    refine ⟨⟨fun i _ u hu => hu, fun _ _ => List.nodup_nil⟩, fun u hu => ?_, fun u _ hu => ?_⟩
    · cases hu
    · cases hu
  generalize (rtSystemTimerInit tick fun t => rtTimerInit (time t) (periodic t)) = s at hinit hkept
  induction events generalizing s with
  | nil => exact hinit.flags
  | cons e events ih =>
    refine ⟨hinit.flags, fun s' hs' => ?_⟩
    obtain ⟨hk, hrest⟩ := hkept s' hs'
    exact ih s' (hinit.event hlevels hk hs') hrest

/-- The timeout function of the timer 0 starts its own timer, and that of the timer 1 stops the timer 2. -/
def sampleBody : Body (Fin 3) := fun _ t _ => if t = 0 then [.start 0] else [.stop 2]

def sampleEvents : List (Event (Fin 3)) :=
  [.call (.start 0), .call (.start 1), .call (.start 2), .setTick 4, .check sampleBody 2]

def sampleTimers : State (Fin 3) := rtSystemTimerInit 0 fun t => rtTimerInit 4 (decide (t = 0))

theorem timer_flags_match_sample : (exec (eventStep 2 1) sampleTimers sampleEvents).isSome = true ∧
    AllStates (eventStep 2 1) (FlagsMatch 2) sampleTimers sampleEvents :=
  ⟨by decide, timer_flags_match (by decide) 1 0 (fun _ => 4) (fun t => decide (t = 0)) (by decide)⟩

/-- A one-shot timer whose timeout function starts it again is linked behind the check, and `rt_timer_stop` refuses
to stop it. -/
theorem restart_loses_flag : ∃ s : State Unit,
    exec (eventStep 1 1) (rtSystemTimerInit 0 fun _ => rtTimerInit 5 false)
        [.call (.start ()), .setTick 5, .check (fun _ t _ => [.start t]) 1] = some s ∧
      () ∈ s.row 0 ∧ (s.timer ()).activated = false ∧ (rtTimerStop s ()).2 = .error ∧ ¬FlagsMatch 1 s := by
  have hrun : ((exec (eventStep 1 1) (rtSystemTimerInit 0 fun _ : Unit => rtTimerInit 5 false)
      [.call (.start ()), .setTick 5, .check (fun _ t _ => [.start t]) 1]).map fun s =>
        decide (() ∈ s.row 0 ∧ (s.timer ()).activated = false ∧ (rtTimerStop s ()).2 = .error)) = some true := by
    decide
  obtain ⟨s, hs, hvalues⟩ := Option.map_eq_some_iff.mp hrun
  obtain ⟨hlinked, hflag, hstop⟩ := of_decide_eq_true hvalues
  refine ⟨s, hs, hlinked, hflag, hstop, fun h => ?_⟩
  rw [(h.activated_iff ()).mpr hlinked] at hflag
  cases hflag

end RtThread.Clock.Timer
