import RtThread.Ipc.Base
import RtThread.Lib.SkipList

/-!
# Timers (`timer.c`, the hard timers)

The rows of `rt_timer_list` are lists; row `levels - 1` is the bottom one. A pointer to a node
of a row is the timer, or `none` for the head of the row, so that `row_head[row_lvl] + 1` is
the same position in the next row. A function without a result stands for a failed assertion,
or for a loop that has not ended within its fuel.
-/

namespace RtThread.Clock.Timer

open RtThread.Lib.SkipList RtThread.Ipc.Base

/-- `RT_TICK_MAX / 2`. -/
def halfMax : BitVec 32 := 0xffffffff#32 / 2

/-- The fields of `struct rt_timer` used here; the flags are `RT_TIMER_FLAG_PERIODIC` and
`RT_TIMER_FLAG_ACTIVATED`. -/
structure RtTimer where
  initTick : BitVec 32
  timeoutTick : BitVec 32
  periodic : Bool
  activated : Bool

/-- `row` is `rt_timer_list`, `randomNr` the static variable of `rt_timer_start`. -/
structure State (T : Type*) where
  row : ℕ → List T
  randomNr : BitVec 32
  tick : BitVec 32
  timer : T → RtTimer

/-- `_rt_timer_init` (`timer.c:80-104`). -/
def rtTimerInit (time : BitVec 32) (periodic : Bool) : RtTimer := ⟨time, 0, periodic, false⟩

variable {T : Type*}

/-- `rt_system_timer_init` (`timer.c:679-687`), when the tick counter is `tick`. -/
def rtSystemTimerInit (tick : BitVec 32) (timer : T → RtTimer) : State T := ⟨fun _ => [], 0, tick, timer⟩

variable [DecidableEq T]

def State.setTimer (s : State T) (t : T) (f : RtTimer → RtTimer) : State T :=
  { s with timer := Function.update s.timer t (f (s.timer t)) }

/-- `_rt_timer_remove` (`timer.c:121-129`). -/
def rtTimerRemove (s : State T) (t : T) : State T := { s with row := fun i => (s.row i).erase t }

def RtTimer.deactivate (tm : RtTimer) : RtTimer := { tm with activated := false }

/-- The search goes on over a timer with timeout `x` (`timer.c:359-366`). -/
def passes (timeoutTick x : BitVec 32) : Bool :=
  if x - timeoutTick = 0 then true
  else if x - timeoutTick < halfMax then false
  else true

/-- The rows above the bottom one that a timer is linked to: `i` rows are left
(`timer.c:381-391`). -/
def insertRows (mask : BitVec 32) (head : ℕ → Option T) (t : T) : ℕ → BitVec 32 → (ℕ → List T) → ℕ → List T
  | 0, _, row => row
  | i + 1, tstNr, row =>
    if tstNr &&& mask = 0 then
      insertRows mask head t i (tstNr >>> ((mask + 1) >>> 1))
        (Function.update row i (insertAfter t (head i) (row i)))
    else row

variable (levels : ℕ) (mask : BitVec 32)

/-- The insertion of a timer whose timeout is set (`timer.c:342-393`). -/
def linkTimer (s : State T) (t : T) : State T :=
  let head := search (fun u => passes (s.timer t).timeoutTick (s.timer u).timeoutTick) s.row
  let randomNr := s.randomNr + 1
  let bottom := Function.update s.row (levels - 1) (insertAfter t (head (levels - 1)) (s.row (levels - 1)))
  { s.setTimer t fun tm => { tm with activated := true } with
    row := insertRows mask head t (levels - 1) randomNr bottom
    randomNr := randomNr }

/-- `rt_timer_start` (`timer.c:296-412`). -/
def rtTimerStart (s : State T) (t : T) : Option (State T) :=
  let s := (rtTimerRemove s t).setTimer t RtTimer.deactivate
  if (s.timer t).initTick < halfMax then
    some (linkTimer levels mask (s.setTimer t fun tm => { tm with timeoutTick := s.tick + tm.initTick }) t)
  else none

/-- `rt_timer_stop` (`timer.c:422-447`). -/
def rtTimerStop (s : State T) (t : T) : State T × RtErr :=
  if (s.timer t).activated = true then ((rtTimerRemove s t).setTimer t RtTimer.deactivate, .eok)
  else (s, .error)

inductive Cmd where
  | getTime
  | setTime (time : BitVec 32)
  | setOneshot
  | setPeriodic

def Cmd.apply (tm : RtTimer) : Cmd → RtTimer
  | .getTime => tm
  | .setTime time => { tm with initTick := time }
  | .setOneshot => { tm with periodic := false }
  | .setPeriodic => { tm with periodic := true }

/-- `rt_timer_control` (`timer.c:459-485`), with the value stored for `RT_TIMER_CTRL_GET_TIME`. -/
def rtTimerControl (s : State T) (t : T) (cmd : Cmd) : State T × Option (BitVec 32) :=
  (s.setTimer t fun tm => cmd.apply tm,
    match cmd with
    | .getTime => some (s.timer t).initTick
    | _ => none)

/-- What `rt_timer_check` does with a timer after its timeout function (`timer.c:532-544`). -/
def rearm (s : State T) (t : T) : Option (State T) :=
  let stopped := s.setTimer t RtTimer.deactivate
  if (s.timer t).periodic && (s.timer t).activated then rtTimerStart levels mask stopped t
  else some stopped

/-- The loop of `rt_timer_check` (`timer.c:507-547`), with the timers whose timeout functions
were called. `call` is what a timeout function does to the timers. -/
def checkLoop (call : T → State T → State T) : ℕ → BitVec 32 → State T → Option (State T × List T)
  | 0, _, _ => none
  | fuel + 1, currentTick, s =>
    match s.row (levels - 1) with
    | [] => some (s, [])
    | t :: _ =>
      if currentTick - (s.timer t).timeoutTick < halfMax then
        let s := call t (rtTimerRemove s t)
        (rearm levels mask s t).bind fun s' =>
          (checkLoop call fuel s.tick s').map fun r => (r.1, t :: r.2)
      else some (s, [])

/-- `rt_timer_check` (`timer.c:494-553`). -/
def rtTimerCheck (call : T → State T → State T) (fuel : ℕ) (s : State T) : Option (State T × List T) :=
  checkLoop levels mask call fuel s.tick s

/-- What the callers of the timer functions keep to: `init_tick` is below `RT_TICK_MAX / 2`, and
not zero when the timer is periodic. -/
def RtTimer.Valid (tm : RtTimer) : Prop := tm.initTick < halfMax ∧ (tm.periodic = true → tm.initTick ≠ 0)

instance (tm : RtTimer) : Decidable tm.Valid := inferInstanceAs (Decidable (_ ∧ _))

inductive Act (T : Type*) where
  | start (t : T)
  | stop (t : T)
  | control (t : T) (cmd : Cmd)
  | tick

/-- One call. A tick is `rt_tick_increase` as far as the timers go (`clock.c:72-97`): the
counter, and `rt_timer_check` with timeout functions that do not touch timers. -/
def step (s : State T) : Act T → Option (State T)
  | .start t => rtTimerStart levels mask s t
  | .stop t => some (rtTimerStop s t).1
  | .control t cmd =>
    if (cmd.apply (s.timer t)).Valid then some (rtTimerControl s t cmd).1 else none
  | .tick =>
    (rtTimerCheck levels mask (fun _ s => s) ((s.row (levels - 1)).length + 1)
      { s with tick := s.tick + 1 }).map Prod.fst

end RtThread.Clock.Timer
