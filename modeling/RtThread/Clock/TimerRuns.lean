import RtThread.Clock.Timer
import RtThread.Lib.Transition

/-!
# Runs of the timers

`Queue` says what the timer list is for: the started timers, sorted by the time that is left
to them, and those with the same time in the order of their starts. The bottom row is this
list in every run. Times are measured from a tick `b`: the current one, or, while a check
is going on, the one before it.
-/

namespace RtThread.Clock.Timer

open RtThread.Lib.SkipList RtThread.Lib.Transition

variable {T : Type*}

/-! ### The abstract list -/

structure Queue (T : Type*) where
  linked : List T
  tick : BitVec 32
  initTick : T → BitVec 32
  timeoutTick : T → BitVec 32
  periodic : T → Bool

def Queue.remaining (q : Queue T) (t : T) : ℕ := (q.timeoutTick t - q.tick).toNat

def Queue.init (tick : BitVec 32) (time : T → BitVec 32) (periodic : T → Bool) : Queue T :=
  ⟨[], tick, time, fun _ => 0, periodic⟩

variable [DecidableEq T]

/-- A started timer goes behind all timers whose remaining time is not larger. -/
def Queue.start (q : Queue T) (t : T) : Queue T :=
  let q := { q with timeoutTick := Function.update q.timeoutTick t (q.tick + q.initTick t) }
  { q with linked := insertBehind (fun u => decide (q.remaining u ≤ q.remaining t)) t (q.linked.erase t) }

def Queue.stop (q : Queue T) (t : T) : Queue T := { q with linked := q.linked.erase t }

def Queue.control (q : Queue T) (t : T) : Cmd → Queue T
  | .getTime => q
  | .setTime time => { q with initTick := Function.update q.initTick t time }
  | .setOneshot => { q with periodic := Function.update q.periodic t false }
  | .setPeriodic => { q with periodic := Function.update q.periodic t true }

/-- At a tick the timers whose time has come leave the list; then the periodic ones among
them are started again, in the order of the list. -/
def Queue.elapse (q : Queue T) : Queue T :=
  let due := q.linked.filter fun t => decide (q.remaining t ≤ 1)
  (due.filter q.periodic).foldl Queue.start
    { q with tick := q.tick + 1
             linked := q.linked.filter fun t => !decide (q.remaining t ≤ 1) }

def Queue.step (q : Queue T) : Act T → Queue T
  | .start t => q.start t
  | .stop t => q.stop t
  | .control t cmd => q.control t cmd
  | .tick => q.elapse

omit [DecidableEq T] in
def State.queue (s : State T) (linked : List T) : Queue T :=
  ⟨linked, s.tick, fun t => (s.timer t).initTick, fun t => (s.timer t).timeoutTick,
    fun t => (s.timer t).periodic⟩

/-! ### Ticks modulo `2 ^ 32` -/

def since (b x : BitVec 32) : ℕ := (x - b).toNat

theorem passes_eq {b x y : BitVec 32} (hx : since b x < since b y + (2 ^ 31 - 1))
    (hy : since b y < since b x + 2 ^ 31) : passes y x = decide (since b x ≤ since b y) := by
  unfold since at *
  have hlt : (halfMax : BitVec 32).toNat = 2 ^ 31 - 1 := by decide
  simp only [passes, BitVec.lt_def, hlt]
  split
  · rename_i h
    have : x = y := by bv_omega
    simp [this]
  · rename_i hne
    split
    · rename_i h
      symm
      rw [decide_eq_false_iff_not]
      bv_omega
    · rename_i h
      symm
      rw [decide_eq_true_iff]
      bv_omega

theorem due_iff {b x : BitVec 32} (hx : since b x < 2 ^ 31) :
    b + 1 - x < halfMax ↔ since b x ≤ 1 := by
  have hlt : (halfMax : BitVec 32).toNat = 2 ^ 31 - 1 := by decide
  unfold since at *
  rw [BitVec.lt_def, hlt]
  bv_omega

theorem since_succ {b x : BitVec 32} (hx : 0 < since b x) : since (b + 1) x = since b x - 1 := by
  unfold since at *
  bv_omega

theorem since_add (b x : BitVec 32) : since b (b + x) = x.toNat := by
  unfold since
  bv_omega

theorem since_succ_add {b x : BitVec 32} (hx : x < halfMax) : since b (b + 1 + x) = x.toNat + 1 := by
  rw [BitVec.lt_def, show halfMax.toNat = 2 ^ 31 - 1 by decide] at hx
  unfold since
  bv_omega

/-! ### The rows -/

/-- The rows of a state, when times are measured from `b` and are below `w`. -/
structure Inv (levels : ℕ) (b : BitVec 32) (w : ℕ) (s : State T) : Prop where
  nested : ∀ i, i + 1 < levels → (s.row i).Sublist (s.row (i + 1))
  nodup : (s.row (levels - 1)).Nodup
  sorted : (s.row (levels - 1)).Pairwise fun t u =>
    since b (s.timer t).timeoutTick ≤ since b (s.timer u).timeoutTick
  window : ∀ t ∈ s.row (levels - 1), since b (s.timer t).timeoutTick < w
  activated : ∀ t ∈ s.row (levels - 1), (s.timer t).activated = true
  valid : ∀ t, (s.timer t).Valid

variable {levels : ℕ} {b : BitVec 32} {w : ℕ} {s : State T} {t : T}

omit [DecidableEq T] in
theorem sublist_bottom {row : ℕ → List T} (h : ∀ i, i + 1 < levels → (row i).Sublist (row (i + 1)))
    {i : ℕ} (hi : i < levels) : (row i).Sublist (row (levels - 1)) := by
  induction hk : levels - 1 - i generalizing i with
  | zero => rw [show i = levels - 1 by omega]
  | succ k ih => exact (h i (by omega)).trans (ih (by omega) (by omega))

omit [DecidableEq T] in
theorem Inv.rowSorted (h : Inv levels b w s) {i : ℕ} (hi : i < levels) :
    (s.row i).Pairwise fun t u =>
      since b (s.timer t).timeoutTick ≤ since b (s.timer u).timeoutTick :=
  h.sorted.sublist (sublist_bottom h.nested hi)

omit [DecidableEq T] in
theorem Inv.of_eq {w' : ℕ} {s' : State T} (h : Inv levels b w s) (hw : w ≤ w') (hrow : s'.row = s.row)
    (htimeout : ∀ u ∈ s.row (levels - 1), (s'.timer u).timeoutTick = (s.timer u).timeoutTick)
    (hact : ∀ u ∈ s.row (levels - 1), (s'.timer u).activated = true)
    (hvalid : ∀ u, (s'.timer u).Valid) : Inv levels b w' s' := by
  refine ⟨?_, ?_, ?_, ?_, ?_, hvalid⟩
  · rw [hrow]
    exact h.nested
  · rw [hrow]
    exact h.nodup
  · rw [hrow]
    refine h.sorted.imp_of_mem fun {t u} ht hu hle => ?_
    rw [htimeout t ht, htimeout u hu]
    exact hle
  · intro u hu
    rw [hrow] at hu
    rw [htimeout u hu]
    exact (h.window u hu).trans_le hw
  · rw [hrow]
    exact hact

@[simp] theorem setTimer_self (f : RtTimer → RtTimer) : (s.setTimer t f).timer t = f (s.timer t) :=
  Function.update_self ..

@[simp] theorem setTimer_of_ne {u : T} (hu : u ≠ t) (f : RtTimer → RtTimer) :
    (s.setTimer t f).timer u = s.timer u := Function.update_of_ne hu _ _

@[simp] theorem setTimer_row (f : RtTimer → RtTimer) : (s.setTimer t f).row = s.row := rfl

@[simp] theorem setTimer_tick (f : RtTimer → RtTimer) : (s.setTimer t f).tick = s.tick := rfl

theorem Inv.unlink (h : Inv levels b w s) {f : RtTimer → RtTimer} (hvalid : (f (s.timer t)).Valid) :
    Inv levels b w ((rtTimerRemove s t).setTimer t f) := by
  have hmem : ∀ u, u ∈ (s.row (levels - 1)).erase t → u ≠ t ∧ u ∈ s.row (levels - 1) := fun u hu =>
    h.nodup.mem_erase_iff.mp hu
  have hremove : Inv levels b w (rtTimerRemove s t) :=
    ⟨fun i hi => (h.nested i hi).erase t, h.nodup.erase t, h.sorted.sublist List.erase_sublist,
      fun u hu => h.window u (hmem u hu).2, fun u hu => h.activated u (hmem u hu).2, h.valid⟩
  refine hremove.of_eq le_rfl rfl (fun u hu => ?_) (fun u hu => ?_) fun u => ?_
  · rw [setTimer_of_ne (hmem u hu).1]
  · rw [setTimer_of_ne (hmem u hu).1]
    exact h.activated u (hmem u hu).2
  · by_cases hut : u = t
    · rw [hut, setTimer_self]
      exact hvalid
    · rw [setTimer_of_ne hut]
      exact h.valid u

theorem insertRows_eq (mask : BitVec 32) (head : ℕ → Option T) (t : T) (n : ℕ) (tstNr : BitVec 32)
    (row : ℕ → List T) : ∃ m ≤ n, insertRows mask head t n tstNr row =
      fun i => if m ≤ i ∧ i < n then insertAfter t (head i) (row i) else row i := by
  induction n generalizing tstNr row with
  | zero => exact ⟨0, le_rfl, by simp [insertRows]⟩
  | succ n ih =>
    simp only [insertRows]
    split
    · obtain ⟨m, hm, heq⟩ := ih (tstNr >>> ((mask + 1) >>> 1))
        (Function.update row n (insertAfter t (head n) (row n)))
      refine ⟨m, by omega, ?_⟩
      rw [heq]
      funext i
      by_cases hi : i = n
      · subst hi
        simp [hm]
      · rw [Function.update_of_ne hi]
        simp only [show (m ≤ i ∧ i < n) ↔ (m ≤ i ∧ i < n + 1) by omega]
    · refine ⟨n + 1, le_rfl, ?_⟩
      funext i
      rw [if_neg (by omega)]

/-- The rows after an insertion: the search finds in each row the place behind all timers
that do not expire later. -/
theorem linkTimer_row (hlevels : 0 < levels) (mask : BitVec 32) (h : Inv levels b w s)
    (hlow : w ≤ since b (s.timer t).timeoutTick + (2 ^ 31 - 1))
    (hhigh : since b (s.timer t).timeoutTick < 2 ^ 31) :
    ∃ m ≤ levels - 1, ∀ i < levels, (linkTimer levels mask s t).row i =
      if m ≤ i then insertBehind (fun u => decide (since b (s.timer u).timeoutTick ≤
        since b (s.timer t).timeoutTick)) t (s.row i)
      else s.row i := by
  have hpass : ∀ u ∈ s.row (levels - 1), passes (s.timer t).timeoutTick (s.timer u).timeoutTick =
      decide (since b (s.timer u).timeoutTick ≤ since b (s.timer t).timeoutTick) := by
    intro u hu
    have hw := h.window u hu
    exact passes_eq (by omega) (by omega)
  have hord : ∀ i < levels, Ordered
      (fun u => passes (s.timer t).timeoutTick (s.timer u).timeoutTick) (s.row i) := by
    intro i hi
    exact (ordered_of_sorted (h.rowSorted hi) _).congr fun u hu =>
      hpass u ((sublist_bottom h.nested hi).subset hu)
  have hnd : ∀ i < levels, (s.row i).Nodup := fun i hi => h.nodup.sublist (sublist_bottom h.nested hi)
  have hinsert : ∀ i < levels,
      insertAfter t (search (fun u => passes (s.timer t).timeoutTick (s.timer u).timeoutTick) s.row i)
        (s.row i) = insertBehind (fun u => decide (since b (s.timer u).timeoutTick ≤
          since b (s.timer t).timeoutTick)) t (s.row i) := by
    intro i hi
    rw [search_eq hnd hord h.nested hi, insertAfter_takeWhile t (hnd i hi) (hord i hi)]
    exact insertBehind_congr t fun u hu => hpass u ((sublist_bottom h.nested hi).subset hu)
  obtain ⟨m, hm, heq⟩ := insertRows_eq mask
    (search (fun u => passes (s.timer t).timeoutTick (s.timer u).timeoutTick) s.row) t (levels - 1)
    (s.randomNr + 1) (Function.update s.row (levels - 1) (insertAfter t
      (search (fun u => passes (s.timer t).timeoutTick (s.timer u).timeoutTick) s.row (levels - 1))
      (s.row (levels - 1))))
  refine ⟨m, hm, fun i hi => ?_⟩
  simp only [linkTimer]
  rw [heq]
  by_cases hbot : i = levels - 1
  · subst hbot
    simp [hm, hinsert (levels - 1) hi]
  · simp only [Function.update_of_ne hbot, show i < levels - 1 by omega, and_true, hinsert i hi]

theorem Inv.link (hlevels : 0 < levels) (mask : BitVec 32) (h : Inv levels b w s)
    (hnot : t ∉ s.row (levels - 1)) (hmax : w ≤ 2 ^ 31) (hw : since b (s.timer t).timeoutTick < w)
    (hlow : w ≤ since b (s.timer t).timeoutTick + (2 ^ 31 - 1)) :
    Inv levels b w (linkTimer levels mask s t) ∧
      (linkTimer levels mask s t).row (levels - 1) =
        insertBehind (fun u => decide (since b (s.timer u).timeoutTick ≤
          since b (s.timer t).timeoutTick)) t (s.row (levels - 1)) := by
  obtain ⟨m, hm, hrow⟩ := linkTimer_row hlevels mask h hlow (hw.trans_le hmax)
  have hbottom := hrow (levels - 1) (by omega)
  rw [if_pos hm] at hbottom
  have htimeout : ∀ u, ((linkTimer levels mask s t).timer u).timeoutTick = (s.timer u).timeoutTick := by
    intro u
    by_cases hut : u = t
    · subst hut
      simp [linkTimer, State.setTimer]
    · simp [linkTimer, State.setTimer, hut]
  refine ⟨⟨fun i hi => ?_, ?_, ?_, fun u hu => ?_, fun u hu => ?_, fun u => ?_⟩, hbottom⟩
  · rw [hrow i (by omega), hrow (i + 1) hi]
    split
    · rw [if_pos (by omega)]
      exact insertBehind_sublist (h.nested i hi)
    · split
      · exact (h.nested i hi).trans (ordered_of_sorted (h.rowSorted hi) _).sublist_insertBehind
      · exact h.nested i hi
  · rw [hbottom, (insertBehind_perm _ t _).nodup_iff]
    exact List.nodup_cons.mpr ⟨hnot, h.nodup⟩
  · simp only [hbottom, htimeout]
    exact pairwise_insertBehind (fun u => since b (s.timer u).timeoutTick) h.sorted
  · rw [htimeout]
    rw [hbottom, mem_insertBehind] at hu
    rcases hu with rfl | hu
    · exact hw
    · exact h.window u hu
  · rw [hbottom, mem_insertBehind] at hu
    by_cases hut : u = t
    · subst hut
      simp [linkTimer, State.setTimer]
    · simpa [linkTimer, State.setTimer, hut] using h.activated u (hu.resolve_left hut)
  · by_cases hut : u = t
    · subst hut
      simp only [linkTimer, State.setTimer, Function.update_self]
      exact h.valid u
    · simpa [linkTimer, State.setTimer, hut] using h.valid u

theorem setTimer_setTimer (f g : RtTimer → RtTimer) :
    (s.setTimer t f).setTimer t g = s.setTimer t fun tm => g (f tm) := by
  simp [State.setTimer]

theorem rtTimerStart_spec (hlevels : 0 < levels) (mask : BitVec 32) (h : Inv levels b w s)
    (hmax : w ≤ 2 ^ 31) (hw : since b (s.tick + (s.timer t).initTick) < w)
    (hlow : w ≤ since b (s.tick + (s.timer t).initTick) + (2 ^ 31 - 1)) :
    ∃ s', rtTimerStart levels mask s t = some s' ∧ Inv levels b w s' ∧ s'.tick = s.tick ∧
      s'.timer = Function.update s.timer t
        { s.timer t with timeoutTick := s.tick + (s.timer t).initTick, activated := true } ∧
      s'.row (levels - 1) = insertBehind (fun u => decide (since b (s'.timer u).timeoutTick ≤
        since b (s'.timer t).timeoutTick)) t ((s.row (levels - 1)).erase t) := by
  -- the state whose timeout is set, with the timer unlinked
  obtain ⟨s₁, hs₁⟩ : ∃ s₁, s₁ = (rtTimerRemove s t).setTimer t fun tm =>
      { tm.deactivate with timeoutTick := s.tick + tm.initTick } := ⟨_, rfl⟩
  have hstart : rtTimerStart levels mask s t = some (linkTimer levels mask s₁ t) := by
    simp only [rtTimerStart, setTimer_setTimer, setTimer_tick, setTimer_self, hs₁]
    exact if_pos (h.valid t).1
  have hinv : Inv levels b w s₁ := hs₁ ▸ h.unlink (h.valid t)
  have htimer : s₁.timer t = { s.timer t with
      timeoutTick := s.tick + (s.timer t).initTick, activated := false } := by
    rw [hs₁, setTimer_self]
    rfl
  have hrow : s₁.row (levels - 1) = (s.row (levels - 1)).erase t := by
    rw [hs₁]
    rfl
  have hnot : t ∉ s₁.row (levels - 1) := by
    rw [hrow]
    exact h.nodup.not_mem_erase
  have htimeout : (s₁.timer t).timeoutTick = s.tick + (s.timer t).initTick := by rw [htimer]
  obtain ⟨hlink, hbottom⟩ := hinv.link hlevels mask hnot hmax (by rwa [htimeout]) (by rwa [htimeout])
  have htimer' : (linkTimer levels mask s₁ t).timer = Function.update s.timer t
      { s.timer t with timeoutTick := s.tick + (s.timer t).initTick, activated := true } := by
    simp only [linkTimer, State.setTimer, htimer]
    rw [hs₁]
    simp [State.setTimer, rtTimerRemove]
  refine ⟨_, hstart, hlink, by rw [hs₁]; rfl, htimer', ?_⟩
  rw [hbottom, hrow]
  refine insertBehind_congr t fun u _ => ?_
  rw [htimer', Function.update_self, htimeout]
  by_cases hut : u = t
  · rw [hut, Function.update_self, htimeout]
  · rw [Function.update_of_ne hut, hs₁, setTimer_of_ne hut]
    rfl

/-! ### Every function refines the abstract one -/

theorem queue_start {s' : State T} {l : List T} (htick : s'.tick = s.tick)
    (htimer : s'.timer = Function.update s.timer t
      { s.timer t with timeoutTick := s.tick + (s.timer t).initTick, activated := true })
    {l' : List T} (hl : l' = insertBehind (fun u => decide (since s.tick (s'.timer u).timeoutTick ≤
      since s.tick (s'.timer t).timeoutTick)) t (l.erase t)) :
    s'.queue l' = (s.queue l).start t := by
  have hinit : (fun u => (s'.timer u).initTick) = fun u => (s.timer u).initTick := by
    funext u
    rw [htimer]
    by_cases hut : u = t <;> simp [hut]
  have hper : (fun u => (s'.timer u).periodic) = fun u => (s.timer u).periodic := by
    funext u
    rw [htimer]
    by_cases hut : u = t <;> simp [hut]
  have htimeout : (fun u => (s'.timer u).timeoutTick) =
      Function.update (fun u => (s.timer u).timeoutTick) t (s.tick + (s.timer t).initTick) := by
    funext u
    rw [htimer]
    by_cases hut : u = t <;> simp [hut]
  simp only [State.queue, Queue.start, hinit, hper, htick, htimeout, hl]
  congr 1
  refine insertBehind_congr t fun u _ => ?_
  have hu : ∀ u, (s'.timer u).timeoutTick =
      Function.update (fun u => (s.timer u).timeoutTick) t (s.tick + (s.timer t).initTick) u :=
    fun u => congrFun htimeout u
  rw [hu u, hu t]
  rfl

theorem queue_setTimer {f : RtTimer → RtTimer} (hf : ∀ tm, (f tm).initTick = tm.initTick ∧
    (f tm).timeoutTick = tm.timeoutTick ∧ (f tm).periodic = tm.periodic) (l : List T) :
    (s.setTimer t f).queue l = s.queue l := by
  have h : ∀ u, ((s.setTimer t f).timer u).initTick = (s.timer u).initTick ∧
      ((s.setTimer t f).timer u).timeoutTick = (s.timer u).timeoutTick ∧
      ((s.setTimer t f).timer u).periodic = (s.timer u).periodic := by
    intro u
    by_cases hut : u = t
    · rw [hut, setTimer_self]
      exact hf _
    · rw [setTimer_of_ne hut]
      exact ⟨rfl, rfl, rfl⟩
  simp only [State.queue, setTimer_tick, (h _).1, (h _).2.1, (h _).2.2]

/-- A timer that is due leaves the list; a periodic one goes behind the timers that are due
too, to the place that the abstract list has for it. -/
theorem rearm_spec (hlevels : 0 < levels) (mask : BitVec 32) {due rest : List T}
    (h : Inv levels b (2 ^ 31) s) (htick : s.tick = b + 1)
    (hbottom : s.row (levels - 1) = t :: (due ++ rest))
    (hdue : ∀ u ∈ due, since b (s.timer u).timeoutTick ≤ 1)
    (hrest : ∀ u ∈ rest, 1 < since b (s.timer u).timeoutTick) :
    ∃ s' rest', rearm levels mask (rtTimerRemove s t) t = some s' ∧ Inv levels b (2 ^ 31) s' ∧
      s'.tick = b + 1 ∧ s'.row (levels - 1) = due ++ rest' ∧ (∀ u, u ≠ t → s'.timer u = s.timer u) ∧
      (∀ u ∈ rest', 1 < since b (s'.timer u).timeoutTick) ∧
      s'.queue rest' = if (s.timer t).periodic then (s.queue rest).start t else s.queue rest := by
  have hnd := h.nodup
  rw [hbottom, List.nodup_cons, List.mem_append, not_or] at hnd
  obtain ⟨⟨hnotdue, hnotrest⟩, -⟩ := hnd
  have hact : (s.timer t).activated = true := h.activated t (by rw [hbottom]; exact List.mem_cons_self)
  have hold : ∀ u, u ≠ t → ((rtTimerRemove s t).setTimer t RtTimer.deactivate).timer u = s.timer u :=
    fun u hu => setTimer_of_ne hu _
  have hinv := h.unlink (t := t) (f := RtTimer.deactivate) (h.valid t)
  have hrow : ((rtTimerRemove s t).setTimer t RtTimer.deactivate).row (levels - 1) = due ++ rest := by
    show (s.row (levels - 1)).erase t = _
    rw [hbottom, List.erase_cons_head]
  have hqueue : ((rtTimerRemove s t).setTimer t RtTimer.deactivate).queue rest = s.queue rest :=
    queue_setTimer (f := RtTimer.deactivate) (fun _ => ⟨rfl, rfl, rfl⟩) rest
  cases hper : (s.timer t).periodic with
  | false =>
    refine ⟨_, rest, ?_, hinv, htick, hrow, hold, fun u hu => ?_, hqueue⟩
    · simp [rearm, rtTimerRemove, hper]
    · rw [hold u fun he => hnotrest (he ▸ hu)]
      exact hrest u hu
  | true =>
    have hinit : since b (s.tick + (s.timer t).initTick) = (s.timer t).initTick.toNat + 1 := by
      rw [htick]
      exact since_succ_add (h.valid t).1
    have hpos : (s.timer t).initTick.toNat ≠ 0 := fun hz =>
      (h.valid t).2 hper (BitVec.eq_of_toNat_eq hz)
    have hlt : (s.timer t).initTick.toNat < 2 ^ 31 - 1 := (h.valid t).1
    have hdeact : ((rtTimerRemove s t).setTimer t RtTimer.deactivate).timer t = (s.timer t).deactivate :=
      setTimer_self _
    obtain ⟨s', hs', hinv', htick', htimer, hrow'⟩ := rtTimerStart_spec hlevels mask hinv le_rfl
      (t := t) (by rw [hdeact]; exact hinit.trans_lt (by omega)) (by
        rw [hdeact]
        show 2 ^ 31 ≤ since b (s.tick + (s.timer t).initTick) + (2 ^ 31 - 1)
        omega)
    have hnew : since b (s'.timer t).timeoutTick = (s.timer t).initTick.toNat + 1 := by
      rw [htimer, Function.update_self, hdeact]
      exact hinit
    have hold' : ∀ u, u ≠ t → s'.timer u = s.timer u := fun u hu => by
      rw [htimer, Function.update_of_ne hu]
      exact hold u hu
    have hpass : ∀ u ∈ due, decide (since b (s'.timer u).timeoutTick ≤
        since b (s'.timer t).timeoutTick) = true := by
      intro u hu
      rw [hold' u fun he => hnotdue (he ▸ hu), hnew, decide_eq_true_eq]
      have := hdue u hu
      omega
    rw [hrow, List.erase_of_not_mem (by simp [hnotdue, hnotrest]), insertBehind_append t hpass] at hrow'
    refine ⟨s', _, ?_, hinv', htick'.trans htick, hrow', hold', fun u hu => ?_, ?_⟩
    · simpa [rearm, rtTimerRemove, hper, hact] using hs'
    · rcases mem_insertBehind.mp hu with rfl | hu
      · omega
      · rw [hold' u fun he => hnotrest (he ▸ hu)]
        exact hrest u hu
    · rw [if_pos rfl, ← hqueue]
      refine queue_start htick' htimer ?_
      rw [List.erase_of_not_mem hnotrest]
      refine insertBehind_congr t fun u hu => ?_
      have hlarge := hrest u hu
      have hsame := hold' u fun he => hnotrest (he ▸ hu)
      show _ = decide (since s.tick _ ≤ since s.tick _)
      rw [htick, since_succ (by rw [hsame]; omega), since_succ (by omega)]
      rw [hsame, decide_eq_decide]
      omega

/-- The check ends, having called the timeout functions of the timers that are due: those at
the head of the list. -/
theorem checkLoop_spec (hlevels : 0 < levels) (mask : BitVec 32) (due : List T) {fuel : ℕ} {rest : List T}
    (hfuel : due.length < fuel) (h : Inv levels b (2 ^ 31) s) (htick : s.tick = b + 1)
    (hbottom : s.row (levels - 1) = due ++ rest)
    (hdue : ∀ u ∈ due, since b (s.timer u).timeoutTick ≤ 1)
    (hrest : ∀ u ∈ rest, 1 < since b (s.timer u).timeoutTick) :
    ∃ s', checkLoop levels mask (fun _ s => s) fuel (b + 1) s = some (s', due) ∧
      Inv levels b (2 ^ 31) s' ∧ s'.tick = b + 1 ∧
      (∀ u ∈ s'.row (levels - 1), 1 < since b (s'.timer u).timeoutTick) ∧
      s'.queue (s'.row (levels - 1)) =
        (due.filter fun u => (s.timer u).periodic).foldl Queue.start (s.queue rest) := by
  induction due generalizing fuel s rest with
  | nil =>
    obtain ⟨n, rfl⟩ := Nat.exists_eq_add_of_lt hfuel
    refine ⟨s, ?_, h, htick, by rw [hbottom]; exact hrest, by rw [hbottom]; rfl⟩
    simp only [checkLoop, hbottom]
    cases rest with
    | nil => rfl
    | cons u rest =>
      -- the first timer is not due
      have hu := hrest u List.mem_cons_self
      have hwin := h.window u (by rw [hbottom]; exact List.mem_cons_self)
      have hnot : ¬b + 1 - (s.timer u).timeoutTick < halfMax := by
        rw [due_iff hwin]
        omega
      simp only [List.nil_append, if_neg hnot]
  | cons t due ih =>
    obtain ⟨n, rfl⟩ : ∃ n, fuel = n + 1 := ⟨fuel - 1, by have := Nat.zero_lt_of_lt hfuel; omega⟩
    rw [List.cons_append] at hbottom
    have hmem : t ∈ s.row (levels - 1) := by
      rw [hbottom]
      exact List.mem_cons_self
    have hnotdue : t ∉ due := by
      have hnd := h.nodup
      rw [hbottom, List.nodup_cons] at hnd
      exact fun hd => hnd.1 (List.mem_append_left _ hd)
    have hfires : b + 1 - (s.timer t).timeoutTick < halfMax :=
      (due_iff (h.window t hmem)).mpr (hdue t List.mem_cons_self)
    have hdue' : ∀ u ∈ due, since b (s.timer u).timeoutTick ≤ 1 := fun u hu =>
      hdue u (List.mem_cons_of_mem t hu)
    obtain ⟨s₁, rest', hs₁, hinv₁, htick₁, hbottom₁, hold, hrest₁, hqueue⟩ :=
      rearm_spec hlevels mask h htick hbottom hdue' hrest
    have hsame : ∀ u ∈ due, s₁.timer u = s.timer u := fun u hu => hold u fun he => hnotdue (he ▸ hu)
    obtain ⟨s', hs', hinv', htick', hlate, hfold⟩ := @ih s₁ n rest' (by simpa using hfuel) hinv₁ htick₁
      hbottom₁ (fun u hu => by rw [hsame u hu]; exact hdue' u hu) hrest₁
    refine ⟨s', ?_, hinv', htick', hlate, ?_⟩
    · simp only [checkLoop, hbottom, if_pos hfires, hs₁, Option.bind_some]
      rw [show (rtTimerRemove s t).tick = b + 1 from htick, hs']
      rfl
    · rw [hfold, hqueue, List.filter_congr fun u hu => by rw [hsame u hu]]
      cases hper : (s.timer t).periodic <;> simp [hper]

/-! ### Every run -/

def Between (levels : ℕ) (s : State T) : Prop := Inv levels s.tick (2 ^ 31 - 1) s

omit [DecidableEq T] in
theorem init_between (levels : ℕ) (tick : BitVec 32) {timer : T → RtTimer} (h : ∀ t, (timer t).Valid) :
    Between levels (rtSystemTimerInit tick timer) :=
  ⟨fun _ _ => List.Sublist.refl _, List.nodup_nil, List.Pairwise.nil, nofun, nofun, h⟩

theorem start_between (hlevels : 0 < levels) (mask : BitVec 32) (h : Between levels s) (t : T) :
    ∃ s', rtTimerStart levels mask s t = some s' ∧ Between levels s' ∧
      s'.queue (s'.row (levels - 1)) = (s.queue (s.row (levels - 1))).start t := by
  have hlt : (s.timer t).initTick.toNat < 2 ^ 31 - 1 := (h.valid t).1
  obtain ⟨s', hs', hinv, htick, htimer, hrow⟩ := rtTimerStart_spec hlevels mask h (by omega)
    (t := t) (by rwa [since_add]) (by omega)
  refine ⟨s', hs', ?_, queue_start htick htimer hrow⟩
  rw [Between, htick]
  exact hinv

theorem stop_between (h : Between levels s) (t : T) : Between levels (rtTimerStop s t).1 ∧
    (rtTimerStop s t).1.queue ((rtTimerStop s t).1.row (levels - 1)) =
      (s.queue (s.row (levels - 1))).stop t := by
  simp only [rtTimerStop]
  split
  · exact ⟨h.unlink (h.valid t), queue_setTimer (f := RtTimer.deactivate) (fun _ => ⟨rfl, rfl, rfl⟩) _⟩
  · -- a timer that is not activated is not in the list
    rename_i hact
    refine ⟨h, ?_⟩
    rw [Queue.stop, State.queue, List.erase_of_not_mem fun hmem => hact (h.activated t hmem)]

theorem control_between (h : Between levels s) (t : T) {cmd : Cmd} (hvalid : (cmd.apply (s.timer t)).Valid) :
    Between levels (rtTimerControl s t cmd).1 ∧
    (rtTimerControl s t cmd).1.queue ((rtTimerControl s t cmd).1.row (levels - 1)) =
      (s.queue (s.row (levels - 1))).control t cmd := by
  have hkeep : ∀ tm, (cmd.apply tm).timeoutTick = tm.timeoutTick ∧ (cmd.apply tm).activated = tm.activated := by
    intro tm
    cases cmd <;> exact ⟨rfl, rfl⟩
  constructor
  · refine Inv.of_eq h le_rfl rfl (fun u _ => ?_) (fun u hu => ?_) fun u => ?_
    all_goals simp only [rtTimerControl]
    all_goals by_cases hut : u = t
    · rw [hut, setTimer_self, (hkeep _).1]
    · rw [setTimer_of_ne hut]
    · subst hut
      rw [setTimer_self, (hkeep _).2]
      exact h.activated u hu
    · rw [setTimer_of_ne hut]
      exact h.activated u hu
    · rw [hut, setTimer_self]
      exact hvalid
    · rw [setTimer_of_ne hut]
      exact h.valid u
  · cases cmd with
    | getTime =>
      simp only [rtTimerControl, Cmd.apply, Queue.control]
      exact queue_setTimer (f := fun tm => tm) (fun _ => ⟨rfl, rfl, rfl⟩) _
    | setTime _ | setOneshot | setPeriodic =>
      simp only [rtTimerControl, Cmd.apply, Queue.control, State.queue, State.setTimer, Queue.mk.injEq,
        true_and]
      refine ⟨?_, ?_, ?_⟩
      all_goals
        funext u
        by_cases hut : u = t <;> simp [hut]

omit [DecidableEq T] in
theorem Inv.advance (h : Inv levels b (2 ^ 31) s)
    (hlate : ∀ u ∈ s.row (levels - 1), 1 < since b (s.timer u).timeoutTick) :
    Inv levels (b + 1) (2 ^ 31 - 1) s := by
  have hsucc : ∀ u ∈ s.row (levels - 1), since (b + 1) (s.timer u).timeoutTick =
      since b (s.timer u).timeoutTick - 1 := fun u hu => since_succ (by have := hlate u hu; omega)
  refine ⟨h.nested, h.nodup, ?_, fun u hu => ?_, h.activated, h.valid⟩
  · refine h.sorted.imp_of_mem fun {t u} ht hu hle => ?_
    rw [hsucc t ht, hsucc u hu]
    omega
  · rw [hsucc u hu]
    have hwin := h.window u hu
    have := hlate u hu
    omega

/-- A check at the next tick calls the timeout functions of the timers that are due then, in the order of the list. -/
theorem check_between (hlevels : 0 < levels) (mask : BitVec 32) (h : Between levels s) {fuel : ℕ}
    (hfuel : (s.row (levels - 1)).length < fuel) :
    ∃ s', rtTimerCheck levels mask (fun _ s => s) fuel { s with tick := s.tick + 1 } =
        some (s', (s.row (levels - 1)).filter fun u => decide (since s.tick (s.timer u).timeoutTick ≤ 1)) ∧
      Between levels s' ∧ s'.queue (s'.row (levels - 1)) = (s.queue (s.row (levels - 1))).elapse := by
  have hord := ordered_of_sorted h.sorted 1
  have hinv : Inv levels s.tick (2 ^ 31) { s with tick := s.tick + 1 } :=
    Inv.of_eq h (by omega) rfl (fun _ _ => rfl) h.activated h.valid
  obtain ⟨s', hs', hinv', htick', hlate, hqueue⟩ := checkLoop_spec hlevels mask
    ((s.row (levels - 1)).filter fun u => decide (since s.tick (s.timer u).timeoutTick ≤ 1))
    ((List.length_filter_le _ _).trans_lt hfuel) hinv rfl hord.filter_append.symm
    (fun u hu => by simpa using (List.mem_filter.mp hu).2)
    (fun u hu => by simpa using (List.mem_filter.mp hu).2)
  refine ⟨s', hs', ?_, hqueue⟩
  rw [Between, htick']
  exact hinv'.advance hlate

theorem tick_between (hlevels : 0 < levels) (mask : BitVec 32) (h : Between levels s) :
    ∃ s', step levels mask s .tick = some s' ∧ Between levels s' ∧
      s'.queue (s'.row (levels - 1)) = (s.queue (s.row (levels - 1))).elapse := by
  obtain ⟨s', hs', hbetween, hqueue⟩ := check_between hlevels mask h (Nat.lt_succ_self _)
  exact ⟨s', by simp only [step, hs', Option.map_some], hbetween, hqueue⟩

theorem step_between (hlevels : 0 < levels) (mask : BitVec 32) (h : Between levels s) {a : Act T}
    {s' : State T} (hs : step levels mask s a = some s') : Between levels s' ∧
      s'.queue (s'.row (levels - 1)) = (s.queue (s.row (levels - 1))).step a := by
  cases a with
  | start t =>
    obtain ⟨s₁, hs₁, hstart⟩ := start_between hlevels mask h t
    cases hs₁.symm.trans hs
    exact hstart
  | stop t =>
    cases hs
    exact stop_between h t
  | control t cmd =>
    simp only [step, Option.ite_none_right_eq_some, Option.some.injEq] at hs
    obtain ⟨hvalid, rfl⟩ := hs
    exact control_between h t hvalid
  | tick =>
    obtain ⟨s₁, hs₁, htick⟩ := tick_between hlevels mask h
    cases hs₁.symm.trans hs
    exact htick

theorem run_between (hlevels : 0 < levels) (mask : BitVec 32) (h : Between levels s) {acts : List (Act T)}
    {s' : State T} (hrun : exec (step levels mask) s acts = some s') : Between levels s' ∧
      s'.queue (s'.row (levels - 1)) = acts.foldl Queue.step (s.queue (s.row (levels - 1))) := by
  induction acts generalizing s with
  | nil =>
    cases hrun
    exact ⟨h, rfl⟩
  | cons a acts ih =>
    obtain ⟨m, hm, hrest⟩ := exec_cons_eq_some.mp hrun
    obtain ⟨hm', hqueue⟩ := step_between hlevels mask h hm
    obtain ⟨hs', hfold⟩ := ih hm' hrest
    exact ⟨hs', by rw [hfold, hqueue, List.foldl_cons]⟩

/-- In every run the bottom row is the abstract list, each row is a subsequence of the next,
and all rows are sorted by remaining time; no start fails and every check ends. -/
theorem timer_rows_refine (hlevels : 0 < levels) (mask tick : BitVec 32) {time : T → BitVec 32}
    {periodic : T → Bool} (hvalid : ∀ t, (rtTimerInit (time t) (periodic t)).Valid) {acts : List (Act T)}
    (hrun : exec (step levels mask) (rtSystemTimerInit tick fun t => rtTimerInit (time t) (periodic t))
      acts = some s) :
    s.row (levels - 1) = (acts.foldl Queue.step (Queue.init tick time periodic)).linked ∧
    (∀ i, i + 1 < levels → (s.row i).Sublist (s.row (i + 1))) ∧
    (∀ i < levels, (s.row i).Pairwise fun t u =>
      ((s.timer t).timeoutTick - s.tick).toNat ≤ ((s.timer u).timeoutTick - s.tick).toNat) ∧
    (∀ t, (step levels mask s (.start t)).isSome) ∧ (step levels mask s .tick).isSome := by
  obtain ⟨h, hqueue⟩ := run_between hlevels mask (init_between levels tick hvalid) hrun
  refine ⟨congrArg Queue.linked hqueue, h.nested, fun i hi => h.rowSorted hi, fun t => ?_, ?_⟩
  · obtain ⟨s', hs', -⟩ := start_between hlevels mask h t
    exact Option.isSome_of_eq_some hs'
  · obtain ⟨s', hs', -⟩ := tick_between hlevels mask h
    exact Option.isSome_of_eq_some hs'

/-- Three rows, with the counter about to wrap: timers 0 and 1 are periodic, 2 and 3 not. -/
def wrapRun : List (Act (Fin 4)) :=
  [.start 2, .start 0, .start 3, .start 1, .tick, .tick, .control 2 (.setTime 9), .start 2, .stop 3, .tick]

theorem timer_rows_refine_wrap :
    ∃ s, exec (step 3 1) (rtSystemTimerInit 0xfffffffd fun t : Fin 4 =>
        rtTimerInit (if t < 2 then 2 else 4) (decide (t < 2))) wrapRun = some s ∧
      s.tick = 0 ∧ s.row 2 = [0, 1, 2] ∧
      s.row 2 = (wrapRun.foldl Queue.step (Queue.init 0xfffffffd (fun t => if t < 2 then 2 else 4)
        fun t => decide (t < 2))).linked := by
  refine ⟨_, rfl, rfl, rfl, ?_⟩
  exact (@timer_rows_refine (Fin 4) _ 3 _ (by decide) 1 0xfffffffd (fun t => if t < 2 then 2 else 4)
    (fun t => decide (t < 2)) (by decide) wrapRun rfl).1

end RtThread.Clock.Timer
