import RtThread.Clock.TimerLinks

/-!
# What one check fires

`Starts` logs the starts of the timers against a count of ticks that does not wrap. In every run a
check calls the timeout functions of the timers whose deadline has come, by deadline and then by
start.
-/

namespace RtThread.Clock.Timer

open RtThread.Lib.SkipList RtThread.Lib.Transition

variable {T : Type*} [DecidableEq T] {levels : ℕ} {mask : BitVec 32} {s s' : State T}

/-! ### What a check leaves -/

omit [DecidableEq T] in
theorem rearmed_congr {s₁ s₂ : State T} {t : T} (htick : s₁.tick = s₂.tick) (htimer : s₁.timer t = s₂.timer t) :
    s₁.rearmed t = s₂.rearmed t := by
  rw [State.rearmed, State.rearmed, htick, htimer]

theorem filter_notMem_cons (l : List T) (hl : l.Nodup) (t : T) (ts : List T) :
    (l.filter fun u => decide (u ∉ t :: ts)) = (l.erase t).filter fun u => decide (u ∉ ts) := by
  rw [hl.erase_eq_filter, List.filter_filter]
  refine List.filter_congr fun u _ => ?_
  rw [Bool.and_comm]
  simp [not_or, bne, beq_eq_decide]

theorem checkLoop_effect (hlevels : 0 < levels) {fuel : ℕ} {currentTick : BitVec 32} {due : List T}
    (h : Nested levels s) (hs : checkLoop levels mask (fun _ s => s) fuel currentTick s = some (s', due))
    (hnodup : due.Nodup) :
    Nested levels s' ∧ (∀ u, u ∉ due → s'.timer u = s.timer u) ∧ (∀ t ∈ due, s'.timer t = s.rearmed t) ∧
      (∀ t ∈ due, t ∈ s'.row (levels - 1) ↔ ((s.timer t).periodic && (s.timer t).activated) = true) ∧
      ∀ i < levels, ((s'.row i).filter fun u => decide (u ∉ due)) = (s.row i).filter fun u => decide (u ∉ due) := by
  induction fuel generalizing currentTick s due with
  | zero => cases hs
  | succ fuel ih =>
    rw [checkLoop] at hs
    split at hs
    · cases hs
      exact ⟨h, fun _ _ => rfl, fun _ hu => absurd hu List.not_mem_nil, fun _ hu => absurd hu List.not_mem_nil,
        fun _ _ => rfl⟩
    · rename_i t rest hrow
      split at hs
      · simp only [Option.bind_eq_some_iff, Option.map_eq_some_iff, Prod.exists, Prod.mk.injEq] at hs
        obtain ⟨s₁, hs₁, s₂, due', hs₂, rfl, rfl⟩ := hs
        obtain ⟨hnot, hnodup'⟩ := List.nodup_cons.mp hnodup
        obtain ⟨hremove, hmem⟩ := h.remove hlevels t
        obtain ⟨hnested₁, htick₁, htimer₁, hlinked₁, hothers₁⟩ := rearm_rearmed hlevels hremove hs₁
        obtain ⟨hnested, hkeep, hfired, hlinked, hrows⟩ := ih hnested₁ hs₂ hnodup'
        have hold : ∀ u, u ≠ t → s₁.timer u = s.timer u := by
          intro u hu
          rw [htimer₁, Function.update_of_ne hu]
          rfl
        refine ⟨hnested, fun u hu => ?_, fun u hu => ?_, fun u hu => ?_, fun i hi => ?_⟩
        · obtain ⟨hut, hu'⟩ := not_or.mp (List.mem_cons.not.mp hu)
          rw [hkeep u hu', hold u hut]
        · rcases List.mem_cons.mp hu with rfl | hu'
          · rw [hkeep u hnot, htimer₁, Function.update_self]
            exact rearmed_congr rfl rfl
          · have hut : u ≠ t := fun he => hnot (he ▸ hu')
            rw [hfired u hu']
            exact rearmed_congr htick₁ (hold u hut)
        · rcases List.mem_cons.mp hu with rfl | hu'
          · have hkept : u ∈ s₂.row (levels - 1) ↔ u ∈ s₁.row (levels - 1) := by
              have hfilter : ∀ l : List T, u ∈ (l.filter fun v => decide (v ∉ due')) ↔ u ∈ l := fun l => by
                simp [hnot]
              rw [← hfilter, hrows (levels - 1) (by omega), hfilter]
            have hgone : u ∉ (rtTimerRemove s u).row (levels - 1) := h.not_mem_remove (by omega) u
            rw [hkept, hlinked₁]
            simp only [true_and, hgone, or_false]
            rfl
          · have hut : u ≠ t := fun he => hnot (he ▸ hu')
            rw [hlinked u hu', hold u hut]
        · rw [filter_notMem_cons _ (hnested.nodup i hi), filter_notMem_cons _ (h.nodup i hi)]
          have hstep : ∀ l : List T, l.Nodup → ((l.erase t).filter fun u => decide (u ∉ due')) =
              (l.filter fun u => decide (u ∉ due')).erase t := by
            intro l hl
            rw [hl.erase_eq_filter, (hl.filter _).erase_eq_filter, List.filter_filter, List.filter_filter]
            exact List.filter_congr fun u _ => Bool.and_comm _ _
          rw [hstep _ (hnested.nodup i hi), hrows i hi, ← hstep _ (hnested₁.nodup i hi), hothers₁ i hi]
          show ((((s.row i).erase t).erase t).filter fun u => decide (u ∉ due')) = _
          rw [List.erase_of_not_mem ((h.nodup i hi).not_mem_erase)]
      · cases hs
        exact ⟨h, fun _ _ => rfl, fun _ hu => absurd hu List.not_mem_nil, fun _ hu => absurd hu List.not_mem_nil,
          fun _ _ => rfl⟩

/-! ### The log of the starts -/

/-- `now` counts the ticks, `deadline` is when a timer is due by its last start, and `order` the number of starts
before that one. -/
structure Starts (T : Type*) where
  now : ℕ
  deadline : T → ℕ
  order : T → ℕ
  count : ℕ

omit [DecidableEq T] in
def Starts.init : Starts T := ⟨0, fun _ => 0, fun _ => 0, 0⟩

def Starts.start (l : Starts T) (t : T) (time : BitVec 32) : Starts T :=
  { l with
    deadline := Function.update l.deadline t (l.now + time.toNat)
    order := Function.update l.order t l.count
    count := l.count + 1 }

def Starts.startAll (l : Starts T) (time : T → BitVec 32) (ts : List T) : Starts T :=
  ts.foldl (fun l t => l.start t (time t)) l

/-- The timers whose timeout functions the check of the next tick calls. -/
def State.fires (levels : ℕ) (mask : BitVec 32) (s : State T) : List T :=
  ((rtTimerCheck levels mask (fun _ s => s) ((s.row (levels - 1)).length + 1)
    { s with tick := s.tick + 1 }).map Prod.snd).getD []

/-- The log after a call made in the state `s`. A check starts the periodic timers that it has fired. -/
def Starts.after (levels : ℕ) (mask : BitVec 32) (l : Starts T) (s : State T) : Act T → Starts T
  | .start t => l.start t (s.timer t).initTick
  | .stop _ => l
  | .control _ _ => l
  | .tick => { l with now := l.now + 1 }.startAll (fun t => (s.timer t).initTick)
      ((s.fires levels mask).filter fun t => (s.timer t).periodic)

def logStep (levels : ℕ) (mask : BitVec 32) (c : State T × Starts T) (a : Act T) : Option (State T × Starts T) :=
  (step levels mask c.1 a).map fun s => (s, c.2.after levels mask c.1 a)

/-- By deadline, and by start when the deadlines are equal. -/
def Starts.Before (l : Starts T) (t u : T) : Prop :=
  l.deadline t < l.deadline u ∨ l.deadline t = l.deadline u ∧ l.order t < l.order u

instance (l : Starts T) (t u : T) : Decidable (l.Before t u) := inferInstanceAs (Decidable (_ ∨ _))

structure Logged (q : Queue T) (l : Starts T) : Prop where
  deadline : ∀ t ∈ q.linked, l.deadline t = l.now + q.remaining t
  order : ∀ t ∈ q.linked, l.order t < l.count
  sorted : q.linked.Pairwise l.Before
  nodup : q.linked.Nodup

variable {q : Queue T} {l : Starts T}

omit [DecidableEq T] in
theorem Logged.sublist (h : Logged q l) {ts : List T} (hsub : ts.Sublist q.linked) : Logged { q with linked := ts } l :=
  ⟨fun t ht => h.deadline t (hsub.subset ht), fun t ht => h.order t (hsub.subset ht), h.sorted.sublist hsub,
    h.nodup.sublist hsub⟩

theorem Queue.remaining_start (q : Queue T) (t u : T) :
    (q.start t).remaining u = if u = t then (q.initTick t).toNat else q.remaining u := by
  simp only [Queue.remaining, Queue.start]
  split
  · rename_i he
    rw [he, Function.update_self]
    exact since_add q.tick (q.initTick t)
  · rename_i hne
    rw [Function.update_of_ne hne]

theorem Logged.start (h : Logged q l) (t : T) : Logged (q.start t) (l.start t (q.initTick t)) := by
  have hrest : ∀ u ∈ q.linked.erase t, u ≠ t ∧ u ∈ q.linked := fun u hu => h.nodup.mem_erase_iff.mp hu
  have hlinked : (q.start t).linked = insertBehind (fun u => decide ((q.start t).remaining u ≤
      (q.start t).remaining t)) t (q.linked.erase t) := rfl
  have hself : (q.start t).remaining t = (q.initTick t).toNat := by rw [q.remaining_start, if_pos rfl]
  have hdeadline : ∀ u ∈ t :: q.linked.erase t,
      (l.start t (q.initTick t)).deadline u = l.now + (q.start t).remaining u := by
    intro u hu
    rcases List.mem_cons.mp hu with rfl | hu
    · rw [hself]
      exact Function.update_self ..
    · obtain ⟨hne, hmem⟩ := hrest u hu
      rw [q.remaining_start, if_neg hne, ← h.deadline u hmem]
      exact Function.update_of_ne hne _ _
  have horder : ∀ u ∈ q.linked.erase t, (l.start t (q.initTick t)).order u = l.order u := fun u hu =>
    Function.update_of_ne (hrest u hu).1 _ _
  have hordert : (l.start t (q.initTick t)).order t = l.count := Function.update_self ..
  have hmem : ∀ u, u ∈ (q.start t).linked ↔ u ∈ t :: q.linked.erase t := by
    intro u
    rw [hlinked, mem_insertBehind, List.mem_cons]
  have hbefore : (q.linked.erase t).Pairwise (l.start t (q.initTick t)).Before := by
    refine (h.sorted.sublist List.erase_sublist).imp_of_mem fun {u v} hu hv huv => ?_
    have hdu := hdeadline u (List.mem_cons_of_mem t hu)
    have hdv := hdeadline v (List.mem_cons_of_mem t hv)
    rw [q.remaining_start, if_neg (hrest u hu).1, ← h.deadline u (hrest u hu).2] at hdu
    rw [q.remaining_start, if_neg (hrest v hv).1, ← h.deadline v (hrest v hv).2] at hdv
    rw [Starts.Before, hdu, hdv, horder u hu, horder v hv]
    exact huv
  refine ⟨fun u hu => hdeadline u ((hmem u).mp hu), fun u hu => ?_, ?_, ?_⟩
  · show _ < l.count + 1
    rcases List.mem_cons.mp ((hmem u).mp hu) with rfl | hu
    · rw [hordert]
      exact Nat.lt_succ_self _
    · rw [horder u hu]
      exact Nat.lt_succ_of_lt (h.order u (hrest u hu).2)
  · rw [hlinked]
    refine List.pairwise_append.mpr ⟨hbefore.filter _, List.pairwise_cons.mpr ⟨fun u hu => ?_, hbefore.filter _⟩, ?_⟩
    · simp only [List.mem_filter, Bool.not_eq_true', decide_eq_false_iff_not] at hu
      refine Or.inl ?_
      rw [hdeadline u (List.mem_cons_of_mem t hu.1), hdeadline t List.mem_cons_self]
      omega
    · intro u hu v hv
      simp only [List.mem_filter, decide_eq_true_eq] at hu
      simp only [List.mem_cons, List.mem_filter, Bool.not_eq_true', decide_eq_false_iff_not] at hv
      have hdu := hdeadline u (List.mem_cons_of_mem t hu.1)
      rcases hv with rfl | hv
      · rw [Starts.Before, hdu, hdeadline v List.mem_cons_self, horder u hu.1, hordert]
        have := h.order u (hrest u hu.1).2
        omega
      · refine Or.inl ?_
        rw [hdu, hdeadline v (List.mem_cons_of_mem t hv.1)]
        omega
  · rw [hlinked, (insertBehind_perm _ t _).nodup_iff]
    exact List.nodup_cons.mpr ⟨h.nodup.not_mem_erase, h.nodup.erase t⟩

theorem Logged.startAll (h : Logged q l) (ts : List T) :
    Logged (ts.foldl Queue.start q) (l.startAll q.initTick ts) := by
  induction ts generalizing q l with
  | nil => exact h
  | cons t ts ih => exact ih (h.start t)

theorem Logged.control (h : Logged q l) (t : T) (cmd : Cmd) : Logged (q.control t cmd) l := by
  cases cmd <;> exact ⟨h.deadline, h.order, h.sorted, h.nodup⟩

theorem Logged.elapse (h : Logged q l) {due : List T} (hdue : due = q.linked.filter fun t => decide (q.remaining t ≤ 1)) :
    Logged q.elapse ({ l with now := l.now + 1 }.startAll q.initTick (due.filter q.periodic)) := by
  subst hdue
  refine Logged.startAll (q := { q with tick := q.tick + 1, linked := _ }) ⟨fun t ht => ?_, ?_, ?_, ?_⟩ _
  · simp only [List.mem_filter, Bool.not_eq_true', decide_eq_false_iff_not, not_le] at ht
    have hrem : (q.timeoutTick t - (q.tick + 1)).toNat = q.remaining t - 1 := since_succ (by
      show 0 < q.remaining t
      omega)
    show l.deadline t = l.now + 1 + (q.timeoutTick t - (q.tick + 1)).toNat
    rw [hrem, h.deadline t ht.1]
    omega
  · exact fun t ht => h.order t (List.mem_filter.mp ht).1
  · exact h.sorted.filter _
  · exact h.nodup.filter _

theorem fires_eq (hlevels : 0 < levels) (mask : BitVec 32) (h : Between levels s) : s.fires levels mask =
    (s.row (levels - 1)).filter fun u => decide (since s.tick (s.timer u).timeoutTick ≤ 1) := by
  obtain ⟨s', hs', -⟩ := check_between hlevels mask h (Nat.lt_succ_self _)
  rw [State.fires, hs', Option.map_some, Option.getD_some]

theorem Logged.step (hlevels : 0 < levels) (h : Between levels s) (hl : Logged (s.queue (s.row (levels - 1))) l)
    (a : Act T) : Logged ((s.queue (s.row (levels - 1))).step a) (l.after levels mask s a) := by
  cases a with
  | start t => exact hl.start t
  | stop t => exact hl.sublist List.erase_sublist
  | control t cmd => exact hl.control t cmd
  | tick => exact hl.elapse (fires_eq hlevels mask h)

theorem run_logged (hlevels : 0 < levels) {acts : List (Act T)} {c : State T × Starts T} (h : Between levels s)
    (hl : Logged (s.queue (s.row (levels - 1))) l) (hrun : exec (logStep levels mask) (s, l) acts = some c) :
    Between levels c.1 ∧ Logged (c.1.queue (c.1.row (levels - 1))) c.2 := by
  refine exec_inv (fun c => Between levels c.1 ∧ Logged (c.1.queue (c.1.row (levels - 1))) c.2) ?_ ⟨h, hl⟩ hrun
  rintro c a c' ⟨hc, hlog⟩ hstep
  obtain ⟨s', hs', rfl⟩ := Option.map_eq_some_iff.mp hstep
  obtain ⟨hbetween, hqueue⟩ := step_between hlevels mask hc hs'
  refine ⟨hbetween, ?_⟩
  rw [hqueue]
  exact hlog.step hlevels hc a

/-! ### Every check of every run -/

/-- In every run the check of the next tick ends, and calls the timeout functions of exactly the linked timers whose
deadline has come, each once, by deadline and then by start. Afterwards the one-shot ones among them are unlinked and
not activated, the periodic ones are linked for a time behind the tick, and everything else is as before. -/
theorem check_fires_due (hlevels : 0 < levels) (mask tick : BitVec 32) {time : T → BitVec 32} {periodic : T → Bool}
    (hvalid : ∀ t, (rtTimerInit (time t) (periodic t)).Valid) {acts : List (Act T)}
    (hrun : exec (logStep levels mask) (rtSystemTimerInit tick fun t => rtTimerInit (time t) (periodic t), Starts.init)
      acts = some (s, l)) {fuel : ℕ} (hfuel : (s.row (levels - 1)).length < fuel) :
    ∃ s' fired, rtTimerCheck levels mask (fun _ s => s) fuel { s with tick := s.tick + 1 } = some (s', fired) ∧
      (∀ t, t ∈ fired ↔ t ∈ s.row (levels - 1) ∧ l.deadline t ≤ l.now + 1) ∧
      fired.Nodup ∧ fired.Pairwise l.Before ∧
      (∀ t ∈ fired, (s.timer t).periodic = false →
        (∀ i < levels, t ∉ s'.row i) ∧ s'.timer t = { s.timer t with activated := false }) ∧
      (∀ t ∈ fired, (s.timer t).periodic = true → t ∈ s'.row (levels - 1) ∧
        s'.timer t = { s.timer t with timeoutTick := s.tick + 1 + (s.timer t).initTick, activated := true }) ∧
      (∀ u, u ∉ fired → s'.timer u = s.timer u) ∧
      ∀ i < levels, ((s'.row i).filter fun u => decide (u ∉ fired)) = (s.row i).filter fun u => decide (u ∉ fired) := by
  obtain ⟨h, hlog⟩ := run_logged hlevels (init_between levels tick hvalid)
    ⟨nofun, nofun, List.Pairwise.nil, List.nodup_nil⟩ hrun
  obtain ⟨s', hs', -, -⟩ := check_between hlevels mask h hfuel
  have hmem : ∀ t, t ∈ ((s.row (levels - 1)).filter fun u => decide (since s.tick (s.timer u).timeoutTick ≤ 1)) ↔
      t ∈ s.row (levels - 1) ∧ l.deadline t ≤ l.now + 1 := by
    intro t
    rw [List.mem_filter, decide_eq_true_eq]
    refine and_congr_right fun ht => ?_
    rw [hlog.deadline t ht]
    show (_ : ℕ) ≤ 1 ↔ l.now + since s.tick (s.timer t).timeoutTick ≤ l.now + 1
    omega
  have hnested : Nested levels { s with tick := s.tick + 1 } := (Inv.nested_rows h).of_row rfl
  obtain ⟨hnested', hkeep, htimer, hlinked, hrows⟩ := checkLoop_effect hlevels hnested hs' (h.nodup.filter _)
  have hactive : ∀ t ∈ (s.row (levels - 1)).filter (fun u => decide (since s.tick (s.timer u).timeoutTick ≤ 1)),
      (s.timer t).activated = true := fun t ht => h.activated t (List.mem_filter.mp ht).1
  refine ⟨s', _, hs', hmem, h.nodup.filter _, hlog.sorted.filter _, fun t ht hper => ⟨fun i hi hrow => ?_, ?_⟩,
    fun t ht hper => ⟨?_, ?_⟩, hkeep, hrows⟩
  · have hbottom := (hlinked t ht).mp (hnested'.bottom hi hrow)
    simp [hper] at hbottom
  · rw [htimer t ht, State.rearmed, if_neg (by simp [hper])]
    rfl
  · rw [hlinked t ht]
    simp [hper, hactive t ht]
  · rw [htimer t ht, State.rearmed, if_pos (by simp [hper, hactive t ht])]

section

local instance fourTimers : NeZero 4 := ⟨by decide⟩

def wrapSample : State (Fin 4) :=
  rtSystemTimerInit 0xfffffffd fun t => rtTimerInit (if t < 2 then 2 else 4) (decide (t < 2))

end

/-- The counter wraps before the check, which finds all four timers due. -/
theorem check_fires_due_wrap :
    ∃ (s : State (Fin 4)) (l : Starts (Fin 4)), exec (logStep 3 1) (wrapSample, Starts.init)
        [.start 2, .start 0, .start 3, .start 1, .tick, .tick, .tick] = some (s, l) ∧
      s.tick = 0 ∧ s.fires 3 1 = [2, 3, 0, 1] ∧
      ∃ s' fired, rtTimerCheck 3 1 (fun _ s => s) ((s.row 2).length + 1) { s with tick := s.tick + 1 } = some (s', fired) ∧
        fired.Nodup ∧ fired.Pairwise l.Before := by
  have hrun : ((exec (logStep 3 1) (wrapSample, Starts.init)
      [.start 2, .start 0, .start 3, .start 1, .tick, .tick, .tick]).map fun c => (c.1.tick, c.1.fires 3 1)) =
        some (0, [2, 3, 0, 1]) := by decide
  obtain ⟨⟨s, l⟩, hs, hvalues⟩ := Option.map_eq_some_iff.mp hrun
  obtain ⟨htick, hfires⟩ := Prod.mk.inj hvalues
  obtain ⟨s', fired, hs', -, hnodup, hsorted, -⟩ :=
    check_fires_due (show 0 < 3 by decide) 1 0xfffffffd (show ∀ t : Fin 4, _ by decide) hs (Nat.lt_succ_self _)
  exact ⟨s, l, hs, htick, hfires, s', fired, hs', hnodup, hsorted⟩

end RtThread.Clock.Timer
