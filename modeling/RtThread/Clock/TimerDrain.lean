import RtThread.Clock.TimerLinks

/-!
# When a check ends

The start functions admit a periodic timer with an `init_tick` of zero. The places of the timers in
the rows do not depend on which of them are periodic, so the rows are sorted here too; but a check
that finds such a timer due starts it again for the tick it is at.
-/

namespace RtThread.Clock.Timer

open RtThread.Lib.SkipList RtThread.Lib.Transition

variable {T : Type*} [DecidableEq T] {levels : ℕ} {mask : BitVec 32} {s s' : State T} {t u : T} {b : BitVec 32}

/-- One call, with any `init_tick` that `rt_timer_start` accepts. -/
def admitStep (levels : ℕ) (mask : BitVec 32) (s : State T) : Act T → Option (State T)
  | .start t => rtTimerStart levels mask s t
  | .stop t => some (rtTimerStop s t).1
  | .control t cmd =>
    if (cmd.apply (s.timer t)).initTick < halfMax then some (rtTimerControl s t cmd).1 else none
  | .tick =>
    (rtTimerCheck levels mask (fun _ s => s) ((s.row (levels - 1)).length + 1)
      { s with tick := s.tick + 1 }).map Prod.fst

/-- No linked timer that is due is periodic with an `init_tick` of zero. -/
def State.Drains (levels : ℕ) (s : State T) : Prop :=
  ∀ t ∈ s.row (levels - 1), s.due t → (s.timer t).periodic = true → (s.timer t).initTick ≠ 0

instance (s : State T) : Decidable (s.Drains levels) := inferInstanceAs (Decidable (∀ t ∈ _, _))

/-! ### A check without such timers ends -/

theorem not_due_of_rearmed {x : BitVec 32} (hpos : x ≠ 0) (hlt : x < halfMax) (c : BitVec 32) :
    ¬c - (c + x) < halfMax := by
  rw [BitVec.lt_def, show halfMax.toNat = 2 ^ 31 - 1 by decide] at hlt ⊢
  have hx : x.toNat ≠ 0 := fun hz => hpos (BitVec.eq_of_toNat_eq hz)
  bv_omega

theorem rearm_isSome (s : State T) (hlt : (s.timer t).initTick < halfMax) : (rearm levels mask s t).isSome = true := by
  simp only [rearm]
  split
  · rw [rtTimerStart_isSome, setTimer_self]
    exact hlt
  · rfl

theorem Rearmed.due_length (hlevels : 0 < levels) (h : Nested levels s) (hr : Rearmed levels (rtTimerRemove s t) t s')
    (ht : t ∈ s.row (levels - 1)) (hdue : s.due t) (hlt : (s.timer t).initTick < halfMax)
    (hpos : (s.timer t).periodic = true → (s.timer t).initTick ≠ 0) :
    ((s'.row (levels - 1)).filter fun u => decide (s'.due u)).length + 1 =
      ((s.row (levels - 1)).filter fun u => decide (s.due u)).length := by
  have hrow : (s'.row (levels - 1)).erase t = (s.row (levels - 1)).erase t := by
    rw [hr.others _ (by omega)]
    exact List.erase_of_not_mem ((h.nodup _ (by omega)).not_mem_erase)
  have hold : ∀ u, u ≠ t → (s'.due u ↔ s.due u) := by
    intro u hu
    rw [State.due, State.due, hr.timer, Function.update_of_ne hu, hr.tick]
    rfl
  -- the timer is not linked any more, or not due
  have hgone : t ∉ (s'.row (levels - 1)).filter fun u => decide (s'.due u) := by
    intro hmem
    obtain ⟨hlinked, hdue'⟩ := List.mem_filter.mp hmem
    rcases (hr.linked t).mp hlinked with ⟨-, hper⟩ | hrow
    · have hper' : ((s.timer t).periodic && (s.timer t).activated) = true := hper
      rw [decide_eq_true_eq, State.due, hr.timer, Function.update_self, State.rearmed, if_pos hper, hr.tick] at hdue'
      exact not_due_of_rearmed (hpos (Bool.and_eq_true_iff.mp hper').1) hlt _ hdue'
    · exact absurd hrow (h.not_mem_remove (by omega) t)
  have hfilter : ((s'.row (levels - 1)).filter fun u => decide (s'.due u)) =
      ((s.row (levels - 1)).filter fun u => decide (s.due u)).erase t := by
    have hnodup' := hr.nested.nodup (levels - 1) (by omega)
    have hnodup := h.nodup (levels - 1) (by omega)
    rw [← List.erase_of_not_mem hgone, (hnodup'.filter _).erase_eq_filter, (hnodup.filter _).erase_eq_filter,
      List.filter_filter, List.filter_filter]
    rw [hnodup'.erase_eq_filter, hnodup.erase_eq_filter] at hrow
    have hcommon : ∀ (l : List T) (p : T → Bool), (l.filter fun u => u != t && p u) =
        (l.filter fun u => u != t).filter p := by
      intro l p
      rw [List.filter_filter]
      exact List.filter_congr fun u _ => Bool.and_comm _ _
    rw [hcommon, hcommon, hrow]
    refine List.filter_congr fun u hu => ?_
    have hne : u ≠ t := by simpa using (List.mem_filter.mp hu).2
    rw [decide_eq_decide]
    exact hold u hne
  rw [hfilter]
  have hmem : t ∈ (s.row (levels - 1)).filter fun u => decide (s.due u) :=
    List.mem_filter.mpr ⟨ht, decide_eq_true hdue⟩
  rw [List.length_erase_of_mem hmem]
  have := List.length_pos_of_mem hmem
  omega

theorem Rearmed.drains (hr : Rearmed levels (rtTimerRemove s t) t s') (hdrains : s.Drains levels)
    (hpos : (s.timer t).periodic = true → (s.timer t).initTick ≠ 0) : s'.Drains levels := by
  intro u hu hdue hper
  by_cases hut : u = t
  · subst hut
    rw [hr.timer, Function.update_self, State.rearmed] at hper ⊢
    split at hper
    · rename_i hre
      rw [if_pos hre]
      exact hpos hper
    · rename_i hre
      rw [if_neg hre]
      exact hpos hper
  · have hmem : u ∈ (rtTimerRemove s t).row (levels - 1) := ((hr.linked u).mp hu).resolve_left fun he => hut he.1
    rw [State.due, hr.timer, Function.update_of_ne hut, hr.tick] at hdue
    rw [hr.timer, Function.update_of_ne hut] at hper ⊢
    exact hdrains u (List.mem_of_mem_erase hmem) hdue hper

/-- Whatever the list, the check ends when no timer that is due is periodic with an `init_tick` of zero. -/
theorem check_ends (hlevels : 0 < levels) {fuel : ℕ} (h : Nested levels s) (hlt : ∀ t, (s.timer t).initTick < halfMax)
    (hdrains : s.Drains levels) (hfuel : ((s.row (levels - 1)).filter fun u => decide (s.due u)).length < fuel) :
    (rtTimerCheck levels mask (fun _ s => s) fuel s).isSome = true := by
  unfold rtTimerCheck
  induction fuel generalizing s with
  | zero => cases hfuel
  | succ fuel ih =>
    rw [checkLoop_due]
    split
    · rfl
    · rename_i t rest hrow
      have ht : t ∈ s.row (levels - 1) := by
        rw [hrow]
        exact List.mem_cons_self
      split
      · rename_i hdue
        obtain ⟨s', hs'⟩ := Option.isSome_iff_exists.mp
          (@rearm_isSome T _ levels mask t (rtTimerRemove s t) (hlt t))
        have hr := rearm_rearmed hlevels (h.remove hlevels t).1 hs'
        have hless := hr.due_length hlevels h ht hdue (hlt t) (hdrains t ht hdue)
        have hlt' : ∀ u, (s'.timer u).initTick < halfMax := by
          intro u
          rw [hr.timer]
          by_cases hut : u = t
          · subst hut
            rw [Function.update_self, State.rearmed]
            split
            · exact hlt u
            · exact hlt u
          · rw [Function.update_of_ne hut]
            exact hlt u
        have hrest := ih hr.nested hlt' (hr.drains hdrains (hdrains t ht hdue)) (by omega)
        rw [hr.tick] at hrest
        rw [hs', Option.bind_some, Option.isSome_map]
        exact hrest
      · rfl

/-! ### The rows without the periodic flags -/

def State.oneshot (s : State T) : State T := { s with timer := fun t => { s.timer t with periodic := false } }

theorem oneshot_setTimer {f : RtTimer → RtTimer}
    (hf : ∀ tm, { f tm with periodic := false } = f { tm with periodic := false }) (s : State T) (t : T) :
    (s.setTimer t f).oneshot = s.oneshot.setTimer t f := by
  simp only [State.oneshot, State.setTimer, State.mk.injEq, true_and]
  funext u
  by_cases hut : u = t
  · subst hut
    rw [Function.update_self, Function.update_self, hf]
  · rw [Function.update_of_ne hut, Function.update_of_ne hut]

theorem oneshot_linkTimer (s : State T) (t : T) :
    (linkTimer levels mask s t).oneshot = linkTimer levels mask s.oneshot t := by
  have hset := @oneshot_setTimer T _ (fun tm => { tm with activated := true }) (fun _ => rfl) s t
  simp only [State.oneshot, linkTimer, State.mk.injEq, true_and]
  exact ⟨rfl, congrArg State.timer hset⟩

theorem oneshot_start (s : State T) (t : T) :
    (rtTimerStart levels mask s t).map State.oneshot = rtTimerStart levels mask s.oneshot t := by
  rw [rtTimerStart_eq, rtTimerStart_eq]
  show _ = if (s.timer t).initTick < halfMax then _ else _
  split
  · rw [Option.map_some, oneshot_linkTimer,
      @oneshot_setTimer T _ (fun tm => { tm.deactivate with timeoutTick := s.tick + tm.initTick }) (fun _ => rfl)]
    rfl
  · rfl

/-- The rows are in order, whichever timers are periodic. -/
def InOrder (levels : ℕ) (b : BitVec 32) (s : State T) : Prop := Inv levels b (2 ^ 31) s.oneshot

omit [DecidableEq T] in
theorem InOrder.nested (h : InOrder levels b s) : Nested levels s := (Inv.nested_rows h).of_row rfl

omit [DecidableEq T] in
theorem InOrder.initTick_lt (h : InOrder levels b s) (t : T) : (s.timer t).initTick < halfMax := (h.valid t).1

omit [DecidableEq T] in
theorem InOrder.due_iff (h : InOrder levels b s) (htick : s.tick = b + 1) (ht : t ∈ s.row (levels - 1)) :
    s.due t ↔ since b (s.timer t).timeoutTick ≤ 1 := by
  rw [State.due, htick]
  exact Timer.due_iff (h.window t ht)

omit [DecidableEq T] in
theorem InOrder.head_due (h : InOrder levels b s) (htick : s.tick = b + 1) {rest : List T}
    (hrow : s.row (levels - 1) = t :: rest) (hu : u ∈ s.row (levels - 1)) (hdue : s.due u) : s.due t := by
  have ht : t ∈ s.row (levels - 1) := by
    rw [hrow]
    exact List.mem_cons_self
  rw [h.due_iff htick hu] at hdue
  rw [h.due_iff htick ht]
  have hsorted : (t :: rest).Pairwise fun t u => since b (s.timer t).timeoutTick ≤ since b (s.timer u).timeoutTick :=
    hrow ▸ h.sorted
  rw [hrow] at hu
  rcases List.mem_cons.mp hu with rfl | hu
  · exact hdue
  · exact ((List.pairwise_cons.mp hsorted).1 u hu).trans hdue

theorem InOrder.rearm (hlevels : 0 < levels) (h : InOrder levels b s) (htick : s.tick = b + 1)
    (hs : rearm levels mask (rtTimerRemove s t) t = some s') : InOrder levels b s' := by
  have hunlink : Inv levels b (2 ^ 31) ((rtTimerRemove s t).setTimer t RtTimer.deactivate).oneshot := by
    rw [oneshot_setTimer (fun _ => rfl)]
    exact h.unlink (h.valid t)
  simp only [Timer.rearm] at hs
  split at hs
  · have hinit := since_succ_add (b := b) (h.initTick_lt t)
    obtain ⟨s₁, hs₁, hinv, -⟩ := rtTimerStart_spec hlevels mask hunlink le_rfl (t := t) (by
      show since b (s.tick + (((rtTimerRemove s t).setTimer t RtTimer.deactivate).timer t).initTick) < _
      rw [setTimer_self, htick]
      have := h.initTick_lt t
      rw [BitVec.lt_def, show halfMax.toNat = 2 ^ 31 - 1 by decide] at this
      exact hinit.trans_lt (by omega)) (by
      show _ ≤ since b (s.tick + (((rtTimerRemove s t).setTimer t RtTimer.deactivate).timer t).initTick) + _
      rw [setTimer_self, htick]
      exact (show 2 ^ 31 ≤ (s.timer t).initTick.toNat + 1 + (2 ^ 31 - 1) by omega).trans
        (Nat.add_le_add_right (Nat.le_of_eq hinit.symm) _))
    rw [← oneshot_start, hs, Option.map_some, Option.some.injEq] at hs₁
    rw [InOrder, hs₁]
    exact hinv
  · cases hs
    exact hunlink

theorem InOrder.check (hlevels : 0 < levels) {fuel : ℕ} {due : List T} (h : InOrder levels b s) (htick : s.tick = b + 1)
    (hs : rtTimerCheck levels mask (fun _ s => s) fuel s = some (s', due)) :
    InOrder levels b s' ∧ s'.tick = b + 1 ∧ ∀ u ∈ s'.row (levels - 1), 1 < since b (s'.timer u).timeoutTick := by
  unfold rtTimerCheck at hs
  induction fuel generalizing s due with
  | zero => cases hs
  | succ fuel ih =>
    rw [checkLoop_due] at hs
    split at hs
    · rename_i hrow
      cases hs
      exact ⟨h, htick, fun u hu => by rw [hrow] at hu; cases hu⟩
    · rename_i t rest hrow
      split at hs
      · simp only [Option.bind_eq_some_iff, Option.map_eq_some_iff, Prod.exists, Prod.mk.injEq] at hs
        obtain ⟨s₁, hs₁, s₂, due', hs₂, rfl, rfl⟩ := hs
        have hr := rearm_rearmed hlevels (h.nested.remove hlevels t).1 hs₁
        rw [← hr.tick] at hs₂
        exact ih (h.rearm hlevels htick hs₁) (hr.tick.trans htick) hs₂
      · rename_i hnot
        cases hs
        refine ⟨h, htick, fun u hu => ?_⟩
        by_contra hle
        exact hnot (h.head_due htick hrow hu ((h.due_iff htick hu).mpr (not_lt.mp hle)))

/-- A periodic timer with an `init_tick` of zero that is due stays linked and due. -/
theorem check_hangs (hlevels : 0 < levels) (h : InOrder levels b s) (htick : s.tick = b + 1)
    (hu : u ∈ s.row (levels - 1)) (hdue : s.due u) (hper : (s.timer u).periodic = true)
    (hzero : (s.timer u).initTick = 0) (fuel : ℕ) : rtTimerCheck levels mask (fun _ s => s) fuel s = none := by
  unfold rtTimerCheck
  induction fuel generalizing s with
  | zero => rfl
  | succ fuel ih =>
    rw [checkLoop_due]
    split
    · rename_i hrow
      rw [hrow] at hu
      cases hu
    · rename_i t rest hrow
      rw [if_pos (h.head_due htick hrow hu hdue)]
      cases hs : rearm levels mask (rtTimerRemove s t) t with
      | none => rfl
      | some s₁ =>
        have hr := rearm_rearmed hlevels (h.nested.remove hlevels t).1 hs
        have hact : (s.timer u).activated = true := h.activated u hu
        have htimer : u ∈ s₁.row (levels - 1) ∧ s₁.due u ∧ (s₁.timer u).periodic = true ∧
            (s₁.timer u).initTick = 0 := by
          rw [hr.linked, State.due, hr.timer, hr.tick]
          by_cases hut : u = t
          · subst hut
            have hre : (((rtTimerRemove s u).timer u).periodic && ((rtTimerRemove s u).timer u).activated) = true :=
              Bool.and_eq_true_iff.mpr ⟨hper, hact⟩
            rw [Function.update_self, State.rearmed, if_pos hre]
            refine ⟨Or.inl ⟨rfl, hre⟩, ?_, hper, hzero⟩
            show s.tick - (s.tick + (s.timer u).initTick) < halfMax
            simp [hzero, halfMax]
          · rw [Function.update_of_ne hut]
            exact ⟨Or.inr (((h.nested.remove hlevels t).2 u).mpr ⟨hut, hu⟩), hdue, hper, hzero⟩
        obtain ⟨hu₁, hdue₁, hper₁, hzero₁⟩ := htimer
        rw [Option.bind_some, ← show s₁.tick = (rtTimerRemove s t).tick from hr.tick,
          ih (h.rearm hlevels htick hs) (hr.tick.trans htick) hu₁ hdue₁ hper₁ hzero₁]
        rfl

/-! ### Every run -/

/-- Between two ticks the rows without the periodic flags are those of `TimerRuns`. -/
def Admitted (levels : ℕ) (s : State T) : Prop := Between levels s.oneshot

omit [DecidableEq T] in
theorem Admitted.at_tick (h : Admitted levels s) : InOrder levels s.tick { s with tick := s.tick + 1 } :=
  Inv.of_eq h (by omega) rfl (fun _ _ => rfl) h.activated h.valid

theorem Admitted.step (hlevels : 0 < levels) (h : Admitted levels s) {a : Act T}
    (hs : admitStep levels mask s a = some s') : Admitted levels s' := by
  cases a with
  | start t =>
    obtain ⟨s₁, hs₁, hbetween, -⟩ := start_between hlevels mask h t
    have hs' : rtTimerStart levels mask s t = some s' := hs
    rw [← oneshot_start, hs', Option.map_some, Option.some.injEq] at hs₁
    rw [Admitted, hs₁]
    exact hbetween
  | stop t =>
    cases hs
    have hstop : (rtTimerStop s t).1.oneshot = (rtTimerStop s.oneshot t).1 := by
      unfold rtTimerStop
      show _ = (if (s.timer t).activated = true then _ else _ : State T × _).1
      split
      · exact oneshot_setTimer (fun _ => rfl) (rtTimerRemove s t) t
      · rfl
    rw [Admitted, hstop]
    exact (stop_between h t).1
  | control t cmd =>
    obtain ⟨hlt, he⟩ := Option.ite_none_right_eq_some.mp hs
    cases he
    have hvalid : ∀ u, (((rtTimerControl s t cmd).1.oneshot).timer u).Valid := by
      refine fun u => ⟨?_, nofun⟩
      show ((s.setTimer t fun tm => cmd.apply tm).timer u).initTick < halfMax
      by_cases hut : u = t
      · subst hut
        rw [setTimer_self]
        exact hlt
      · rw [setTimer_of_ne hut]
        exact (h.valid u).1
    have hkeep : ∀ u, ((s.setTimer t fun tm => cmd.apply tm).timer u).timeoutTick = (s.timer u).timeoutTick ∧
        ((s.setTimer t fun tm => cmd.apply tm).timer u).activated = (s.timer u).activated := by
      intro u
      by_cases hut : u = t
      · subst hut
        rw [setTimer_self]
        cases cmd <;> exact ⟨rfl, rfl⟩
      · rw [setTimer_of_ne hut]
        exact ⟨rfl, rfl⟩
    exact Inv.of_eq h le_rfl rfl (fun u _ => (hkeep u).1) (fun u hu => (hkeep u).2.trans (h.activated u hu)) hvalid
  | tick =>
    obtain ⟨⟨s₁, due⟩, hs₁, rfl⟩ := Option.map_eq_some_iff.mp hs
    obtain ⟨horder, htick, hlate⟩ := h.at_tick.check hlevels rfl hs₁
    have hadvance := Inv.advance horder hlate
    rw [Admitted, Between]
    show Inv levels s₁.tick _ _
    rw [htick]
    exact hadvance

theorem run_admitted (hlevels : 0 < levels) {tick : BitVec 32} {time : T → BitVec 32} {periodic : T → Bool}
    (htime : ∀ t, time t < halfMax) {acts : List (Act T)}
    (hrun : exec (admitStep levels mask) (rtSystemTimerInit tick fun t => rtTimerInit (time t) (periodic t)) acts =
      some s) : Admitted levels s := by
  have hinit : Admitted levels (rtSystemTimerInit tick fun t => rtTimerInit (time t) (periodic t)) :=
    init_between levels tick fun t => ⟨htime t, nofun⟩
  exact exec_inv (Admitted levels) (fun s a s' hs hstep => hs.step hlevels hstep) hinit hrun

/-- In every run the check of the next tick ends exactly when no linked timer that is due then is periodic with an
`init_tick` of zero. -/
theorem check_ends_iff (hlevels : 0 < levels) (mask tick : BitVec 32) {time : T → BitVec 32} {periodic : T → Bool}
    (htime : ∀ t, time t < halfMax) {acts : List (Act T)}
    (hrun : exec (admitStep levels mask) (rtSystemTimerInit tick fun t => rtTimerInit (time t) (periodic t)) acts =
      some s) :
    (∃ fuel, (rtTimerCheck levels mask (fun _ s => s) fuel { s with tick := s.tick + 1 }).isSome = true) ↔
      State.Drains levels { s with tick := s.tick + 1 } := by
  have h := run_admitted hlevels htime hrun
  have horder := h.at_tick
  constructor
  · rintro ⟨fuel, hfuel⟩ t ht hdue hper hzero
    rw [check_hangs hlevels horder rfl ht hdue hper hzero] at hfuel
    cases hfuel
  · intro hdrains
    exact ⟨_, check_ends hlevels horder.nested horder.initTick_lt hdrains (Nat.lt_succ_self _)⟩

theorem check_ends_iff_sample : ∃ s : State (Fin 2),
    exec (admitStep 2 1) (rtSystemTimerInit 5 fun t => rtTimerInit (if t = 0 then 0 else 1) (decide (t = 0)))
        [.start 0, .control 0 .setOneshot, .start 1, .tick] = some s ∧
      ∃ fuel, (rtTimerCheck 2 1 (fun _ s => s) fuel { s with tick := s.tick + 1 }).isSome = true := by
  have hrun : ((exec (admitStep 2 1) (rtSystemTimerInit 5 fun t : Fin 2 => rtTimerInit (if t = 0 then 0 else 1)
      (decide (t = 0))) [.start 0, .control 0 .setOneshot, .start 1, .tick]).map fun s =>
        decide (State.Drains 2 { s with tick := s.tick + 1 })) = some true := by decide
  obtain ⟨s, hs, hdrains⟩ := Option.map_eq_some_iff.mp hrun
  exact ⟨s, hs, (@check_ends_iff (Fin 2) _ 2 s (by decide) 1 5 (fun t => if t = 0 then 0 else 1)
    (fun t => decide (t = 0)) (by decide) _ hs).mpr (of_decide_eq_true hdrains)⟩

/-- A periodic timer with an `init_tick` of zero: the check after its start never ends. -/
theorem check_never_ends : ∃ s : State Unit,
    exec (admitStep 1 3) (rtSystemTimerInit 0 fun _ => rtTimerInit 0 true) [.start ()] = some s ∧
      ∀ fuel, rtTimerCheck 1 3 (fun _ s => s) fuel { s with tick := s.tick + 1 } = none := by
  have hrun : ((exec (admitStep 1 3) (rtSystemTimerInit 0 fun _ : Unit => rtTimerInit 0 true) [.start ()]).map fun s =>
      decide (() ∈ s.row 0 ∧ State.due { s with tick := s.tick + 1 } () ∧ (s.timer ()).periodic = true ∧
        (s.timer ()).initTick = 0)) = some true := by decide
  obtain ⟨s, hs, hvalues⟩ := Option.map_eq_some_iff.mp hrun
  obtain ⟨hlinked, hdue, hper, hzero⟩ := of_decide_eq_true hvalues
  have h := run_admitted (show 0 < 1 by decide) (show ∀ _ : Unit, (0 : BitVec 32) < halfMax by decide) hs
  exact ⟨s, hs, check_hangs (by decide) h.at_tick rfl hlinked hdue hper hzero⟩

end RtThread.Clock.Timer
