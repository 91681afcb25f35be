import Mathlib

/-!
# Wait lists of IPC objects (`ipc.c`, `thread.c`)

What all IPC objects share: the fields of `struct rt_thread` that the IPC functions
read and write, and the suspend list of an object. A step of an IPC system is one
interrupt-disabled section of the code. `rt_schedule` only decides which of the
threads that are not suspended runs next; the systems let every one of them take
the next step, so they cover each order the scheduler and the interrupts can cause.
-/

namespace RtThread.Ipc.Base

/-- Error codes (`rtdef.h:268-278`); the functions return them negated. -/
inductive RtErr where
  | eok
  | error
  | etimeout
  | efull
  | eintr
  deriving DecidableEq, Repr

inductive IpcFlag where
  | fifo
  | prio
  deriving DecidableEq, Repr

/-- The fields of `struct rt_thread` used by the IPC functions. Priorities are only
copied and compared; `threadTimer` says whether the built-in timer is activated. -/
structure Thread where
  currentPriority : ℕ
  initPriority : ℕ
  error : RtErr
  threadTimer : Bool
  deriving DecidableEq, Repr

/-- The fields as `_rt_thread_init` sets them (`thread.c:117-206`). -/
def rtThreadInit (priority : ℕ) : Thread := ⟨priority, priority, .eok, false⟩

variable {T : Type*}

/-- The search loop of `rt_ipc_list_suspend` (`ipc.c:98-117`): in front of the first
thread with a larger priority value, else at the end. -/
def insertByPriority (prio : T → ℕ) (t : T) : List T → List T
  | [] => [t]
  | s :: rest => if prio t < prio s then t :: s :: rest else s :: insertByPriority prio t rest

/-- `rt_ipc_list_suspend` on the list itself (`ipc.c:79-122`). -/
def rtIpcListSuspend (flag : IpcFlag) (prio : T → ℕ) (list : List T) (t : T) : List T :=
  match flag with
  | .fifo => list ++ [t]
  | .prio => insertByPriority prio t list

theorem insertByPriority_perm (prio : T → ℕ) (t : T) (list : List T) :
    (insertByPriority prio t list).Perm (t :: list) := by
  induction list with
  | nil => exact List.Perm.refl _
  | cons s rest ih =>
    simp only [insertByPriority]
    split
    · exact List.Perm.refl _
    · exact (ih.cons s).trans (List.Perm.swap t s rest)

theorem rtIpcListSuspend_perm (flag : IpcFlag) (prio : T → ℕ) (list : List T) (t : T) :
    (rtIpcListSuspend flag prio list t).Perm (t :: list) := by
  cases flag with
  | fifo => exact List.perm_append_comm
  | prio => exact insertByPriority_perm prio t list

@[simp] theorem mem_rtIpcListSuspend {flag : IpcFlag} {prio : T → ℕ} {list : List T} {t u : T} :
    u ∈ rtIpcListSuspend flag prio list t ↔ u = t ∨ u ∈ list := by
  rw [(rtIpcListSuspend_perm flag prio list t).mem_iff, List.mem_cons]

theorem nodup_rtIpcListSuspend {flag : IpcFlag} {prio : T → ℕ} {list : List T} {t : T} :
    (rtIpcListSuspend flag prio list t).Nodup ↔ t ∉ list ∧ list.Nodup := by
  rw [(rtIpcListSuspend_perm flag prio list t).nodup_iff, List.nodup_cons]

/-- What suspending does to the thread: `rt_thread_suspend` stops the timer, and a
positive waiting time starts it again (`ipc.c:375-390`). -/
def Thread.suspend (th : Thread) (time : ℤ) : Thread := { th with threadTimer := decide (0 < time) }

/-- What `rt_thread_resume` does to the thread: its timer is stopped (`thread.c:728`). -/
def Thread.resume (th : Thread) : Thread := { th with threadTimer := false }

def Thread.timeout (th : Thread) : Thread := { th with error := .etimeout, threadTimer := false }

/-- `timeout` and `tick_delta` after a wait (`ipc.c:1524-1531`, and the
same in `rt_mb_recv` and `rt_mq_recv`): the difference of the
ticks is an `rt_uint32_t`, and `timeout` is converted to that type and back. -/
def recalculate (timeout : ℤ) (tickDelta now : ℕ) : ℤ × ℕ :=
  if 0 < timeout then
    let delta : ℕ := (now + (2 ^ 32 - tickDelta % 2 ^ 32)) % 2 ^ 32
    (max 0 (Int.bmod (timeout - (delta : ℤ)) (2 ^ 32)), delta)
  else (timeout, tickDelta)

end RtThread.Ipc.Base
