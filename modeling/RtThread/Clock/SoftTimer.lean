import RtThread.Clock.TimerCallbacks

/-!
# Soft timers (`timer.c:555-671`)

`rt_soft_timer_check` keeps a pointer to the next node of the list across the timeout function, where
`rt_timer_check` reads the head of the list again. The list is that of the soft timers here, and the
pointer is a timer, or none for the head of the list.
-/

namespace RtThread.Clock.Timer

open RtThread.Lib.SkipList RtThread.Lib.Transition

variable {T : Type*} [DecidableEq T] (levels : ℕ) (mask : BitVec 32)

/-- `n->next` of the node of a timer; that of a timer which is not linked is the node itself. -/
def nextNode (s : State T) (t : T) : Option T :=
  if t ∈ s.row (levels - 1) then (after (some t) (s.row (levels - 1))).head? else some t

/-- At most `k` passes of the loop of `rt_soft_timer_check` from the pointer `n` on (`timer.c:582-628`), as
`checkPasses`. -/
def softPasses (body : Body T) : ℕ → ℕ → Option T → State T → List T × Option (State T)
  | 0, _, _, s => ([], some s)
  | _ + 1, _, none, s => ([], some s)
  | k + 1, i, some t, s =>
    if s.due t then
      match fire levels mask body i s t with
      | none => ([t], none)
      | some s' =>
        (t :: (softPasses body k (i + 1) (nextNode levels s t) s').1,
          (softPasses body k (i + 1) (nextNode levels s t) s').2)
    else ([], some s)

/-- The passes of `rt_soft_timer_check` (`timer.c:570-636`) from the first node on. -/
def softCheckPasses (body : Body T) (k : ℕ) (s : State T) : List T × Option (State T) :=
  softPasses levels mask body k 0 (s.row (levels - 1)).head? s

/-- The timer that a loop takes which has come to the pointer `n`. -/
def State.takes (s : State T) (n : Option T) : Option T := n.filter fun u => decide (s.due u)

/-- The loop that goes on from `n` and the one that goes on from the head of the list take the same timer. -/
def SameNext (n : Option T) (s : State T) : Prop := s.takes n = s.takes (s.row (levels - 1)).head?

instance (n : Option T) (s : State T) : Decidable (SameNext levels n s) := inferInstanceAs (Decidable (_ = _))

/-- When a timer that followed `t` in the list of `s` is due behind the pass, it is the first of the list; when it
is not, or there was none, the first of the list is not due. -/
def Follows (s : State T) (t : T) (s₁ : State T) : Prop :=
  ∀ s' ∈ rearm levels mask s₁ t, SameNext levels (nextNode levels s t) s'

instance (s : State T) (t : T) (s₁ : State T) : Decidable (Follows levels mask s t s₁) :=
  inferInstanceAs (Decidable (∀ s' ∈ rearm levels mask s₁ t, _))

variable {levels : ℕ} {mask : BitVec 32} {s s' : State T} {t u : T} {body : Body T} {n : Option T} {rest : List T}

/-! ### The two checks -/

omit [DecidableEq T] in
theorem takes_of_due (hdue : s.due t) : s.takes (some t) = some t := by
  rw [State.takes, Option.filter_some, if_pos (decide_eq_true hdue)]

omit [DecidableEq T] in
theorem takes_eq_some (h : s.takes n = some u) : n = some u ∧ s.due u := by
  obtain ⟨hn, hdue⟩ := Option.filter_eq_some_iff.mp h
  exact ⟨hn, of_decide_eq_true hdue⟩

omit [DecidableEq T] in
theorem takes_eq_none (h : s.takes n = none) : ∀ u, n = some u → ¬s.due u := by
  rintro u rfl hdue
  rw [takes_of_due hdue] at h
  cases h

omit [DecidableEq T] in
theorem SameNext.cases (h : SameNext levels n s) :
    ((∀ u, n = some u → ¬s.due u) ∧ ∀ u, (s.row (levels - 1)).head? = some u → ¬s.due u) ∨
      ∃ u rest, n = some u ∧ s.row (levels - 1) = u :: rest ∧ s.due u := by
  cases hn : s.takes n with
  | none => exact Or.inl ⟨takes_eq_none hn, takes_eq_none (h.symm.trans hn)⟩
  | some u =>
    obtain ⟨hnu, hdue⟩ := takes_eq_some hn
    obtain ⟨rest, hrow⟩ := List.head?_eq_some_iff.mp (takes_eq_some (h.symm.trans hn)).1
    exact Or.inr ⟨u, rest, hnu, hrow, hdue⟩

section

local instance threeTimers : NeZero 3 := ⟨by decide⟩

end

def rtTickMax : BitVec 32 := 0xffffffff

/-- `rt_timer_list_next_timeout` (`timer.c:108-119`). -/
def rtTimerListNextTimeout (levels : ℕ) (s : State T) : BitVec 32 :=
  match s.row (levels - 1) with
  | [] => rtTickMax
  | t :: _ => (s.timer t).timeoutTick

/-- `rt_soft_timer_check`, when it ends within `k` passes. -/
def rtSoftTimerCheck (levels : ℕ) (mask : BitVec 32) (body : Body T) (k : ℕ) (s : State T) : Option (State T) :=
  if (softCheckPasses levels mask body (k + 1) s).1.length ≤ k then (softCheckPasses levels mask body (k + 1) s).2
  else none

/-- Where the thread stands in `rt_thread_timer_entry`. -/
inductive Place where
  /-- before `rt_timer_list_next_timeout` -/
  | fetching
  /-- behind it, before `rt_thread_suspend` -/
  | suspending
  | suspended
  /-- in `rt_thread_delay` -/
  | delayed
  /-- before `rt_soft_timer_check` -/
  | checking
  deriving DecidableEq, Repr

structure Soft (T : Type*) where
  timers : State T
  place : Place

/-- `call` is what another thread or an interrupt does, and `wake` the end of `rt_thread_delay`. -/
inductive SoftAct (T : Type*) where
  | call (c : Call T)
  | setTick (tick : BitVec 32)
  | thread
  | wake
  | check (body : Body T) (k : ℕ)

/-- The rest of a call: `rt_timer_start` resumes the thread when it is suspended (`timer.c:398-409`). -/
def resumed (place : Place) : Call T → Place
  | .start _ => if place = .suspended ∨ place = .delayed then .checking else place
  | _ => place

/-- `rt_thread_timer_entry` (`timer.c:639-671`) with the calls of the others, from `fetching` on. -/
def softStep (levels : ℕ) (mask : BitVec 32) (s : Soft T) : SoftAct T → Option (Soft T)
  | .call c => (c.run levels mask s.timers).map fun timers => ⟨timers, resumed s.place c⟩
  | .setTick tick => some { s with timers := { s.timers with tick := tick } }
  | .thread =>
    match s.place with
    | .fetching =>
      let nextTimeout := rtTimerListNextTimeout levels s.timers
      if nextTimeout = rtTickMax then some { s with place := .suspending }
      else if nextTimeout - s.timers.tick < halfMax then some { s with place := .delayed }
      else some { s with place := .checking }
    | .suspending => some { s with place := .suspended }
    | _ => none
  | .wake => if s.place = .delayed then some { s with place := .checking } else none
  | .check body k =>
    if s.place = .checking then
      (rtSoftTimerCheck levels mask body k s.timers).map fun timers => ⟨timers, .fetching⟩
    else none

/-- The thread does not sleep without end on a list that has timers. -/
def Awake (levels : ℕ) (s : Soft T) : Prop := s.place = .suspended → s.timers.row (levels - 1) = []

/-- The thread never reads `RT_TICK_MAX` from a timer, and no timer is started between its reading of the empty
list and its suspension. -/
def Wakes (levels : ℕ) (s : Soft T) : SoftAct T → Prop
  | .thread => s.place = .fetching → ∀ t ∈ (s.timers.row (levels - 1)).head?, (s.timers.timer t).timeoutTick ≠ rtTickMax
  | .call (.start _) => s.place ≠ .suspending
  | _ => True

instance (s : Soft T) : (a : SoftAct T) → Decidable (Wakes levels s a)
  | .thread => inferInstanceAs (Decidable (_ → ∀ t ∈ (s.timers.row (levels - 1)).head?, _))
  | .call (.start _) => inferInstanceAs (Decidable (_ ≠ _))
  | .call (.stop _) | .call (.control _ _) | .setTick _ | .wake | .check _ _ => isTrue trivial

/-- The list is empty from the reading of the empty list on. -/
def Idle (levels : ℕ) (s : Soft T) : Prop :=
  s.place = .suspending ∨ s.place = .suspended → s.timers.row (levels - 1) = []

theorem Idle.call {c : Call T} {timers : State T} {x : Soft T} (h : Idle levels x) (hwakes : Wakes levels x (.call c))
    (hs : c.run levels mask x.timers = some timers) : Idle levels ⟨timers, resumed x.place c⟩ := by
  intro hplace
  cases c with
  | start t =>
    simp only [resumed] at hplace
    split at hplace
    · rcases hplace with he | he <;> cases he
    · rename_i hnot
      rcases hplace with he | he
      · exact absurd he hwakes
      · exact absurd (Or.inl he) hnot
  | stop t =>
    cases hs
    have hnil := h hplace
    unfold rtTimerStop
    split
    · show (x.timers.row (levels - 1)).erase t = []
      rw [hnil]
      rfl
    · exact hnil
  | control t cmd =>
    cases hs
    exact h hplace

theorem Idle.step {a : SoftAct T} {x x' : Soft T} (h : Idle levels x) (hwakes : Wakes levels x a)
    (hs : softStep levels mask x a = some x') : Idle levels x' := by
  cases a with
  | call c =>
    obtain ⟨timers, htimers, rfl⟩ := Option.map_eq_some_iff.mp hs
    exact h.call hwakes htimers
  | setTick tick =>
    cases hs
    exact h
  | thread =>
    simp only [softStep] at hs
    split at hs
    · rename_i hplace
      split at hs
      · -- the empty list, and not a timer, gave `RT_TICK_MAX`
        rename_i hmax
        cases hs
        intro _
        cases hrow : x.timers.row (levels - 1) with
        | nil => rfl
        | cons t rest =>
          rw [rtTimerListNextTimeout, hrow] at hmax
          exact absurd hmax (hwakes hplace t (by rw [hrow]; rfl))
      · split at hs
        · cases hs
          rintro (he | he) <;> cases he
        · cases hs
          rintro (he | he) <;> cases he
    · rename_i hplace
      cases hs
      exact fun _ => h (Or.inl hplace)
    · cases hs
  | wake =>
    obtain ⟨-, he⟩ := Option.ite_none_right_eq_some.mp hs
    cases he
    rintro (he | he) <;> cases he
  | check body k =>
    obtain ⟨-, he⟩ := Option.ite_none_right_eq_some.mp hs
    obtain ⟨timers, -, rfl⟩ := Option.map_eq_some_iff.mp he
    rintro (he | he) <;> cases he

/-- In every run in which the first timer never has the timeout `RT_TICK_MAX` when the thread reads it, and none is
started between the reading of the empty list and the suspension, the thread sleeps without end only on an empty
list. -/
theorem soft_thread_awake (levels : ℕ) (mask tick : BitVec 32) (timer : T → RtTimer) {acts : List (SoftAct T)}
    (hwakes : AllSteps (softStep levels mask) (Wakes levels) ⟨rtSystemTimerInit tick timer, .fetching⟩ acts) :
    AllStates (softStep levels mask) (Awake levels) ⟨rtSystemTimerInit tick timer, .fetching⟩ acts := by
  have hidle : Idle levels (⟨rtSystemTimerInit tick timer, .fetching⟩ : Soft T) := by
    rintro (he | he) <;> cases he
  generalize (⟨rtSystemTimerInit tick timer, .fetching⟩ : Soft T) = x at hidle hwakes
  induction acts generalizing x with
  | nil => exact fun hplace => hidle (Or.inr hplace)
  | cons a acts ih =>
    refine ⟨fun hplace => hidle (Or.inr hplace), fun x' hx' => ?_⟩
    obtain ⟨ha, hrest⟩ := hwakes x' hx'
    exact ih x' (hidle.step ha hx') hrest

def softSample (tick : BitVec 32) : Soft (Fin 2) := ⟨rtSystemTimerInit tick fun _ => rtTimerInit 15 false, .fetching⟩

theorem soft_thread_awake_sample :
    (exec (softStep 2 1) (softSample 0) [.thread, .thread, .call (.start 0), .setTick 15, .check (fun _ _ _ => []) 1,
        .thread, .thread]).isSome = true ∧
      AllStates (softStep 2 1) (Awake 2) (softSample 0) [.thread, .thread, .call (.start 0), .setTick 15,
        .check (fun _ _ _ => []) 1, .thread, .thread] :=
  ⟨by decide, soft_thread_awake 2 1 0 (fun _ => rtTimerInit 15 false) (by decide)⟩

/-- A timer is started 15 ticks before the counter is at `RT_TICK_MAX`; the thread takes its timeout for the mark of
the empty list. -/
theorem soft_thread_sleeps : ∃ x, exec (softStep 2 1) (softSample 0xfffffff0) [.call (.start 0), .thread, .thread] =
    some x ∧ x.place = .suspended ∧ x.timers.row 1 = [0] := by
  have hrun : ((exec (softStep 2 1) (softSample 0xfffffff0) [.call (.start 0), .thread, .thread]).map fun x =>
      (x.place, x.timers.row 1)) = some (.suspended, [0]) := by decide
  obtain ⟨x, hx, hvalues⟩ := Option.map_eq_some_iff.mp hrun
  obtain ⟨hplace, hrow⟩ := Prod.mk.inj hvalues
  exact ⟨x, hx, hplace, hrow⟩

/-- A timer is started behind the reading of the empty list; `rt_timer_start` does not find the thread suspended. -/
theorem soft_thread_misses_start : ∃ x, exec (softStep 2 1) (softSample 0) [.thread, .call (.start 0), .thread] =
    some x ∧ x.place = .suspended ∧ x.timers.row 1 = [0] := by
  have hrun : ((exec (softStep 2 1) (softSample 0) [.thread, .call (.start 0), .thread]).map fun x =>
      (x.place, x.timers.row 1)) = some (.suspended, [0]) := by decide
  obtain ⟨x, hx, hvalues⟩ := Option.map_eq_some_iff.mp hrun
  obtain ⟨hplace, hrow⟩ := Prod.mk.inj hvalues
  exact ⟨x, hx, hplace, hrow⟩

end RtThread.Clock.Timer
