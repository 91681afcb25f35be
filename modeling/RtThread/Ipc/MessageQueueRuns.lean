import RtThread.Lib.Chain
import RtThread.Lib.Pool
import RtThread.Ipc.MessageQueue

/-!
# Runs on a message queue

`Deque` is what a message queue is for: a double-ended queue of messages. Any number of
agents (threads and interrupts) run sections of the code in any order; each linking,
unlinking or reset is one operation on the deque. The slots are at all times shared out
between the free list, the chain of messages and the agents, and the chain stores the
messages of the deque.
-/

namespace RtThread.Ipc.MessageQueue

open RtThread.Lib.Word RtThread.Lib.Transition RtThread.Lib.Chain RtThread.Lib.Pool
open RtThread.Ipc.Base

/-! ### The abstract queue -/

inductive Ev where
  | send (p : List UInt8)
  | urgent (p : List UInt8)
  | recv
  | reset

/-- The messages in the queue, and the messages given to receivers in order. -/
structure Deque where
  queue : List (List UInt8)
  given : List (List UInt8)

def Deque.apply (d : Deque) : Ev → Deque
  | .send p => { d with queue := d.queue ++ [p] }
  | .urgent p => { d with queue := p :: d.queue }
  | .recv =>
    match d.queue with
    | [] => d
    | p :: rest => ⟨rest, d.given ++ [p]⟩
  | .reset => { d with queue := [] }

def Deque.run (log : List Ev) : Deque := log.foldl Deque.apply ⟨[], []⟩

@[simp] theorem run_snoc (log : List Ev) (e : Ev) :
    Deque.run (log ++ [e]) = (Deque.run log).apply e := by
  simp [Deque.run]

/-! ### The system -/

/-- An operation under way: a send with its slot, a receive that waits, or a receive with
its slot. The ticket of a receive is its number among all receives that got a message. -/
inductive Frame where
  | sending (urgent : Bool) (msg : ℕ) (buffer : List UInt8) (copied : Bool)
  | waiting (size : ℕ) (timeout : ℤ) (tickDelta : ℕ)
  | receiving (msg size ticket : ℕ) (copied : Bool)

structure Delivery where
  ticket : ℕ
  size : ℕ
  bytes : List UInt8
  deriving DecidableEq

/-- `log` and `delivered` are history: the operations on the queue in the order of their
sections, and what the receives have copied to their buffers. -/
structure Sys (T : Type*) where
  state : State T
  frame : T → Option Frame
  log : List Ev
  delivered : List Delivery

variable {T : Type*}

def start (state : State T) : Sys T := ⟨state, fun _ => none, [], []⟩

variable [DecidableEq T]

def Sys.setFrame (s : Sys T) (t : T) (f : Option Frame) : Sys T :=
  { s with frame := Function.update s.frame t f }

def Sys.recordRecv (s : Sys T) (t : T) (size : ℕ) (timeout : ℤ) (r : State T × Outcome) : Sys T :=
  match r.2 with
  | .returned _ => { s with state := r.1 }.setFrame t none
  | .holds msg =>
    { s with state := r.1, log := s.log ++ [Ev.recv] }.setFrame t
      (some (.receiving msg size (Deque.run s.log).given.length false))
  | .suspended tickDelta => { s with state := r.1 }.setFrame t (some (.waiting size timeout tickDelta))

inductive Act (T : Type*) where
  | send (t : T) (urgent : Bool) (buffer : List UInt8)
  | recv (t : T) (size : ℕ) (timeout : ℤ)
  | resume (t : T)
  | copy (t : T)
  | finish (t : T)
  | timeout (t : T)
  | reset
  | tick

def Sys.copy (s : Sys T) (t : T) : Option (Sys T) :=
  match s.frame t with
  | some (.sending urgent msg buffer false) =>
    some ({ s with state := if urgent then urgentCopy s.state msg buffer
                            else sendCopy s.state msg buffer }.setFrame t
      (some (.sending urgent msg buffer true)))
  | some (.receiving msg size ticket false) =>
    some ({ s with delivered := ⟨ticket, size, copyOut s.state msg size⟩ :: s.delivered }.setFrame t
      (some (.receiving msg size ticket true)))
  | _ => none

def Sys.finish (s : Sys T) (t : T) : Option (Sys T) :=
  match s.frame t with
  | some (.sending true msg buffer true) =>
    some ({ s with state := urgentLink s.state msg, log := s.log ++ [Ev.urgent buffer] }.setFrame t none)
  | some (.sending false msg buffer true) =>
    some ({ s with state := sendLink s.state msg, log := s.log ++ [Ev.send buffer] }.setFrame t none)
  | some (.receiving msg _ _ true) =>
    some ({ s with state := putFree s.state msg }.setFrame t none)
  | _ => none

/-- A receive that was suspended goes on once its thread is ready. -/
def Sys.resume (s : Sys T) (t : T) : Option (Sys T) :=
  match s.frame t with
  | some (.waiting size timeout tickDelta) =>
    if s.state.suspended t = true then none
    else if (s.state.thread t).error ≠ .eok then some (s.setFrame t none)
    else
      let (timeout, tickDelta) := recalculate timeout tickDelta s.state.tick
      (rtMqRecvPass s.state t timeout tickDelta).map (s.recordRecv t size timeout)
  | _ => none

/-- One section, or a copy between two. The assertions on `size` are guards. -/
def step (s : Sys T) : Act T → Option (Sys T)
  | .send t urgent buffer =>
    if (s.frame t).isNone = true ∧ buffer ≠ [] then
      match takeFree s.state buffer.length with
      | (st, .holds msg) =>
        some ({ s with state := st }.setFrame t (some (.sending urgent msg buffer false)))
      | (st, _) => some { s with state := st }
    else none
  | .recv t size timeout =>
    if (s.frame t).isNone = true ∧ size ≠ 0 then
      (rtMqRecv s.state t timeout).map (s.recordRecv t size timeout)
    else none
  | .resume t => s.resume t
  | .copy t => s.copy t
  | .finish t => s.finish t
  | .timeout t =>
    if s.state.suspended t = true ∧ (s.state.thread t).threadTimer = true then
      some { s with state := rtThreadTimeout s.state t }
    else none
  | .reset => (rtMqReset s.state).map fun st => { s with state := st, log := s.log ++ [.reset] }
  | .tick => some { s with state := { s.state with tick := inc 32 s.state.tick } }

end RtThread.Ipc.MessageQueue
