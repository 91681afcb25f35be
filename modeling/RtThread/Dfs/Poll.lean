import RtThread.Lib.Transition

/-!
# `poll` over wait queues (`poll.c:22-215`, `waitqueue.c:18-75`)

Any number of threads poll the same open files. The steps of the runs are the calls of `rt_poll_add`
and the reading of the mask in the poll function of a file, the interrupt-disabled sections of
`poll_wait_timeout` and `rt_wqueue_wakeup`, and `poll_teardown`; drivers report events and then wake
a queue.
-/

namespace RtThread.Dfs.Poll

open RtThread.Lib.Transition

def POLLIN : BitVec 32 := 0x01
def POLLOUT : BitVec 32 := 0x02
def POLLERR : BitVec 32 := 0x04
def POLLHUP : BitVec 32 := 0x08
def POLLNVAL : BitVec 32 := 0x10
def POLLRDNORM : BitVec 32 := 0x01
def POLLWRNORM : BitVec 32 := 0x02
def POLLMASK_DEFAULT : BitVec 32 := POLLIN ||| POLLOUT ||| POLLRDNORM ||| POLLWRNORM

structure Pollfd where
  fd : ℤ
  events : BitVec 16
  revents : BitVec 16
  deriving DecidableEq, Repr

/-- `pollfd->events | POLLERR | POLLHUP`, an `int`. -/
def Pollfd.wanted (p : Pollfd) : BitVec 32 := p.events.signExtend 32 ||| POLLERR ||| POLLHUP

/-- `req->_key` is a `short`, the key of a node an `rt_uint32_t`. -/
def Pollfd.key (p : Pollfd) : BitVec 32 := (p.wanted.setWidth 16).signExtend 32

/-- The open files: `fd_get`, and for a file whose `fops` has a poll function the queues to which that
function passes its request, in order. -/
structure Files (F Q : Type*) where
  fdGet : ℤ → Option F
  poll : F → Option (List Q)

variable {T F Q : Type*}

/-- A node of a wait queue. `polls` says that its `wakeup` is `__wqueue_pollwake`; that of the nodes of
`rt_wqueue_wait` is `__wqueue_default_wake`. -/
structure Node (T : Type*) where
  thread : T
  key : BitVec 32
  polls : Bool
  deriving DecidableEq

/-- `entry->wakeup(entry, key) == 0` -/
def Node.accepts (key : BitVec 32) (node : Node T) : Bool :=
  !node.polls || key == 0 || key &&& node.key != 0

/-- `rt_wqueue_wakeup`: the node it wakes, and the nodes left in the queue. -/
def rtWqueueWakeup (key : BitVec 32) (queue : List (Node T)) : Option (Node T) × List (Node T) :=
  (queue.find? (Node.accepts key), queue.eraseP (Node.accepts key))

theorem rtWqueueWakeup_keeps {key : BitVec 32} {queue : List (Node T)} {e : Node T} (he : e ∈ queue)
    (hfirst : (rtWqueueWakeup key queue).1 ≠ some e) : e ∈ (rtWqueueWakeup key queue).2 := by
  unfold rtWqueueWakeup at *
  induction queue with
  | nil => cases he
  | cons node queue ih =>
    by_cases hnode : node.accepts key = true
    · rw [List.find?_cons_of_pos hnode] at hfirst
      rw [List.eraseP_cons_of_pos hnode]
      exact (List.mem_cons.mp he).resolve_left fun h => hfirst (by rw [h])
    · rw [List.find?_cons_of_neg hnode] at hfirst
      rw [List.eraseP_cons_of_neg hnode]
      obtain rfl | he := List.mem_cons.mp he
      · exact List.mem_cons_self
      · exact List.mem_cons_of_mem node (ih he hfirst)

/-- The queues to which `do_pollfd` passes the request of an entry. -/
def Files.queues (files : Files F Q) (p : Pollfd) : List Q :=
  if 0 ≤ p.fd then ((files.fdGet p.fd).bind files.poll).getD [] else []

/-- The mask of `do_pollfd`, when the poll functions answer `mask`. -/
def Files.doPollfd (files : Files F Q) (mask : F → BitVec 32) (p : Pollfd) : BitVec 32 :=
  if 0 ≤ p.fd then
    match files.fdGet p.fd with
    | none => POLLNVAL
    | some f => (if (files.poll f).isSome then mask f else POLLMASK_DEFAULT) &&& p.wanted
  else 0

def rtTickFromMillisecond (tickPerSecond ms : ℤ) : ℤ :=
  if ms < 0 then -1
  else (BitVec.ofInt 32 (tickPerSecond * (ms / 1000) + (tickPerSecond * (ms % 1000) + 999) / 1000)).toInt

theorem setWidth_signExtend (events : BitVec 16) : (events.signExtend 32).setWidth 16 = events := by
  ext i hi
  rw [BitVec.getElem_setWidth, BitVec.getLsbD_signExtend, if_pos hi, BitVec.getLsbD_eq_getElem hi]
  simp
  omega

@[simp] theorem Pollfd.key_eq (p : Pollfd) : p.key = p.wanted := by
  have hwidth : p.wanted.setWidth 16 = p.events ||| 4 ||| 8 := by
    rw [Pollfd.wanted, BitVec.setWidth_or, BitVec.setWidth_or, setWidth_signExtend]
    rfl
  rw [Pollfd.key, hwidth, BitVec.signExtend_or, BitVec.signExtend_or]
  rfl

@[simp] theorem Files.queues_revents (files : Files F Q) (p : Pollfd) (r : BitVec 16) :
    files.queues { p with revents := r } = files.queues p := rfl

@[simp] theorem Files.doPollfd_revents (files : Files F Q) (mask : F → BitVec 32) (p : Pollfd) (r : BitVec 16) :
    files.doPollfd mask { p with revents := r } = files.doPollfd mask p := rfl

/-- Events that a driver adds to a file are seen through an entry only if they are wanted and the poll
function of the file has passed the request on. -/
theorem Files.doPollfd_raise [DecidableEq F] {files : Files F Q} {mask : F → BitVec 32} {p : Pollfd} {f : F}
    {events : BitVec 32} (hbefore : files.doPollfd mask p = 0)
    (hafter : files.doPollfd (Function.update mask f (mask f ||| events)) p ≠ 0) :
    files.queues p = (files.poll f).getD [] ∧ events &&& p.wanted ≠ 0 := by
  unfold Files.doPollfd at hbefore hafter
  unfold Files.queues
  by_cases hfd : 0 ≤ p.fd
  · simp only [if_pos hfd] at hbefore hafter ⊢
    cases hget : files.fdGet p.fd with
    | none =>
      rw [hget] at hbefore
      cases hbefore
    | some g =>
      simp only [hget, Option.bind_some] at hbefore hafter ⊢
      by_cases hpoll : (files.poll g).isSome = true
      · simp only [if_pos hpoll] at hbefore hafter
        have hgf : g = f := by
          by_contra hne
          rw [Function.update_of_ne hne] at hafter
          exact hafter hbefore
        subst hgf
        refine ⟨rfl, fun hnone => hafter ?_⟩
        rw [Function.update_self, BitVec.and_comm, BitVec.and_or_distrib_left, BitVec.and_comm, hbefore,
          BitVec.and_comm, hnone]
        rfl
      · simp only [if_neg hpoll] at hbefore hafter
        exact absurd hbefore hafter
  · simp only [if_neg hfd] at hafter
    exact absurd rfl hafter

theorem Files.doPollfd_lower [DecidableEq F] {files : Files F Q} {mask : F → BitVec 32} {p : Pollfd} {f : F}
    {events : BitVec 32} (hafter : files.doPollfd (Function.update mask f (mask f &&& ~~~events)) p ≠ 0) :
    files.doPollfd mask p ≠ 0 := by
  intro hbefore
  refine hafter ?_
  unfold Files.doPollfd at hbefore ⊢
  by_cases hfd : 0 ≤ p.fd
  · simp only [if_pos hfd] at hbefore ⊢
    cases hget : files.fdGet p.fd with
    | none =>
      rw [hget] at hbefore
      cases hbefore
    | some g =>
      simp only [hget] at hbefore ⊢
      by_cases hpoll : (files.poll g).isSome = true
      · simp only [if_pos hpoll] at hbefore ⊢
        by_cases hgf : g = f
        · subst hgf
          rw [Function.update_self, BitVec.and_assoc, BitVec.and_comm (~~~events), ← BitVec.and_assoc, hbefore]
          exact BitVec.zero_and
        · rw [Function.update_of_ne hgf]
          exact hbefore
      · simp only [if_neg hpoll] at hbefore ⊢
        exact hbefore
  · rw [if_neg hfd]

/-! ### Calls and runs -/

/-- A call of `poll`: its arguments, the poll table and the variables of `poll_do`. `proc` says that
`req._proc` is `_poll_add`; the nodes of the table are those of the thread in the queues. -/
structure Call where
  fds : List Pollfd
  msec : ℤ
  proc : Bool
  triggered : Bool
  istimeout : Bool
  num : ℕ
  n : ℕ
  deriving DecidableEq

/-- Where a thread is: `adding` in the poll function of entry `n`, with the queues still to come,
`scanned` behind the loop over the entries, `waiting` in front of `poll_wait_timeout`, `ready` when it
has been resumed or its timer has expired, `leaving` behind `poll_do`; `blocked` in `rt_wqueue_wait`. -/
inductive Place (Q : Type*) where
  | idle
  | adding (rest : List Q)
  | scanned
  | waiting
  | suspended (timer : Bool)
  | ready
  | leaving
  | blocked (q : Q)
  deriving DecidableEq

/-- `coming` holds the wake-ups that follow the events already reported. -/
structure Sys (T F Q : Type*) where
  queue : Q → List (Node T)
  mask : F → BitVec 32
  place : T → Place Q
  call : T → Call
  coming : List (Q × BitVec 32)

inductive Act (T F Q : Type*) where
  | poll (t : T) (fds : List Pollfd) (msec : ℤ)
  | add (t : T) (room : Bool)
  | check (t : T)
  | decide (t : T)
  | wait (t : T)
  | expire (t : T)
  | back (t : T)
  | teardown (t : T)
  | raise (f : F) (events : BitVec 32) (q : Q) (key : BitVec 32)
  | wakeup (q : Q) (key : BitVec 32)
  | lower (f : F) (events : BitVec 32)
  | block (t : T) (q : Q)
  | unblock (t : T)
  deriving DecidableEq

def Place.resume : Place Q → Place Q
  | .suspended _ => .ready
  | place => place

/-- The place at the head of the loop over the entries. -/
def Call.next (files : Files F Q) (c : Call) : Place Q :=
  match c.fds[c.n]? with
  | some p => .adding (files.queues p)
  | none => .scanned

/-- The rest of the loop body behind `do_pollfd`, which has stored its mask in the entry. -/
def Call.checked (files : Files F Q) (mask : F → BitVec 32) (c : Call) (p : Pollfd) : Call :=
  let m := files.doPollfd mask p
  let c := { c with fds := c.fds.set c.n { p with revents := m.setWidth 16 }, n := c.n + 1 }
  if m = 0 then c else { c with num := c.num + 1, proc := false }

section Checked

variable (files : Files F Q) (mask : F → BitVec 32) (c : Call) (p : Pollfd)

theorem checked_of_zero (h : files.doPollfd mask p = 0) :
    c.checked files mask p = { c with fds := c.fds.set c.n { p with revents := 0 }, n := c.n + 1 } := by
  simp only [Call.checked, h, if_true]
  rfl

theorem checked_of_ne (h : files.doPollfd mask p ≠ 0) :
    c.checked files mask p = { c with
      fds := c.fds.set c.n { p with revents := (files.doPollfd mask p).setWidth 16 }
      n := c.n + 1
      num := c.num + 1
      proc := false } := by
  simp only [Call.checked, if_neg h]

@[simp] theorem checked_n : (c.checked files mask p).n = c.n + 1 := by
  simp only [Call.checked, apply_ite Call.n, ite_self]

@[simp] theorem checked_fds : (c.checked files mask p).fds =
    c.fds.set c.n { p with revents := (files.doPollfd mask p).setWidth 16 } := by
  simp only [Call.checked, apply_ite Call.fds, ite_self]

@[simp] theorem checked_triggered : (c.checked files mask p).triggered = c.triggered := by
  simp only [Call.checked, apply_ite Call.triggered, ite_self]

@[simp] theorem checked_istimeout : (c.checked files mask p).istimeout = c.istimeout := by
  simp only [Call.checked, apply_ite Call.istimeout, ite_self]

theorem le_checked_num : c.num ≤ (c.checked files mask p).num := by
  by_cases h : files.doPollfd mask p = 0
  · rw [checked_of_zero _ _ _ _ h]
  · rw [checked_of_ne _ _ _ _ h]
    exact Nat.le_succ _

end Checked

/-- `poll_wait_timeout` has returned `!pt->triggered`, and the loop begins again. -/
def Call.again (c : Call) : Call :=
  { c with istimeout := c.istimeout || !c.triggered, num := 0, n := 0 }

def start : Sys T F Q := ⟨fun _ => [], fun _ => 0, fun _ => .idle, fun _ => ⟨[], 0, false, false, false, 0, 0⟩, []⟩

section Threads

variable [DecidableEq T]

def Sys.move (s : Sys T F Q) (t : T) (place : Place Q) : Sys T F Q :=
  { s with place := Function.update s.place t place }

def Sys.setCall (s : Sys T F Q) (t : T) (c : Call) : Sys T F Q := { s with call := Function.update s.call t c }

/-- `__wqueue_pollwake` marks the table, and `rt_wqueue_wakeup` resumes the thread. -/
def Sys.wake (s : Sys T F Q) : Option (Node T) → Sys T F Q
  | some node =>
    if node.polls = true then
      (s.setCall node.thread { s.call node.thread with triggered := true }).move node.thread
        (s.place node.thread).resume
    else s
  | none => s

variable (s : Sys T F Q) (t : T) (place : Place Q) (c : Call) (node : Option (Node T))

@[simp] theorem move_place : (s.move t place).place = Function.update s.place t place := rfl
@[simp] theorem move_call : (s.move t place).call = s.call := rfl
@[simp] theorem move_queue : (s.move t place).queue = s.queue := rfl
@[simp] theorem move_mask : (s.move t place).mask = s.mask := rfl
@[simp] theorem move_coming : (s.move t place).coming = s.coming := rfl
@[simp] theorem setCall_place : (s.setCall t c).place = s.place := rfl
@[simp] theorem setCall_call : (s.setCall t c).call = Function.update s.call t c := rfl
@[simp] theorem setCall_queue : (s.setCall t c).queue = s.queue := rfl
@[simp] theorem setCall_mask : (s.setCall t c).mask = s.mask := rfl
@[simp] theorem setCall_coming : (s.setCall t c).coming = s.coming := rfl

@[simp] theorem wake_queue : (s.wake node).queue = s.queue := by
  unfold Sys.wake
  split
  · split <;> rfl
  · rfl

@[simp] theorem wake_mask : (s.wake node).mask = s.mask := by
  unfold Sys.wake
  split
  · split <;> rfl
  · rfl

@[simp] theorem wake_coming : (s.wake node).coming = s.coming := by
  unfold Sys.wake
  split
  · split <;> rfl
  · rfl

theorem wake_thread :
    ((s.wake node).place t = s.place t ∧ (s.wake node).call t = s.call t ∧
        ∀ e, node = some e → e.polls = true → e.thread ≠ t) ∨
      ((s.wake node).place t = (s.place t).resume ∧ (s.wake node).call t = { s.call t with triggered := true } ∧
        ∃ e, node = some e ∧ e.polls = true ∧ e.thread = t) := by
  cases node with
  | none => exact .inl ⟨rfl, rfl, fun _ he => by cases he⟩
  | some e =>
    by_cases hpolls : e.polls = true
    · simp only [Sys.wake, if_pos hpolls]
      by_cases ht : t = e.thread
      · subst ht
        exact .inr ⟨Function.update_self .., Function.update_self .., e, rfl, hpolls, rfl⟩
      · refine .inl ⟨Function.update_of_ne ht _ _, Function.update_of_ne ht _ _, fun e' he' _ => ?_⟩
        cases he'
        exact fun h => ht h.symm
    · rw [Sys.wake, if_neg hpolls]
      refine .inl ⟨rfl, rfl, fun e' he' h' => ?_⟩
      cases he'
      exact absurd h' hpolls

end Threads

section Queues

variable [DecidableEq Q]

def Sys.setQueue (s : Sys T F Q) (q : Q) (nodes : List (Node T)) : Sys T F Q :=
  { s with queue := Function.update s.queue q nodes }

/-- `_poll_add`, which leaves the queue as it is when `rt_malloc` has no room. -/
def Sys.pollAdd (s : Sys T F Q) (t : T) (q : Q) (p : Pollfd) (room : Bool) : Sys T F Q :=
  if (s.call t).proc = true ∧ room = true then s.setQueue q (s.queue q ++ [⟨t, p.key, true⟩]) else s

variable (s : Sys T F Q) (t : T) (q : Q) (nodes : List (Node T)) (p : Pollfd) (room : Bool)

@[simp] theorem setQueue_place : (s.setQueue q nodes).place = s.place := rfl
@[simp] theorem setQueue_call : (s.setQueue q nodes).call = s.call := rfl
@[simp] theorem setQueue_queue : (s.setQueue q nodes).queue = Function.update s.queue q nodes := rfl
@[simp] theorem setQueue_mask : (s.setQueue q nodes).mask = s.mask := rfl
@[simp] theorem setQueue_coming : (s.setQueue q nodes).coming = s.coming := rfl

@[simp] theorem pollAdd_place : (s.pollAdd t q p room).place = s.place := by
  unfold Sys.pollAdd
  split <;> rfl

@[simp] theorem pollAdd_call : (s.pollAdd t q p room).call = s.call := by
  unfold Sys.pollAdd
  split <;> rfl

@[simp] theorem pollAdd_mask : (s.pollAdd t q p room).mask = s.mask := by
  unfold Sys.pollAdd
  split <;> rfl

@[simp] theorem pollAdd_coming : (s.pollAdd t q p room).coming = s.coming := by
  unfold Sys.pollAdd
  split <;> rfl

end Queues

variable [DecidableEq T] [DecidableEq F] [DecidableEq Q]

/-- The drivers report events of `poll.h` only, and wake with a key that has all events they report. -/
def step (tickPerSecond : ℤ) (files : Files F Q) (s : Sys T F Q) : Act T F Q → Option (Sys T F Q)
  | .poll t fds msec =>
    match s.place t with
    | .idle =>
      let c : Call := ⟨fds, msec, decide (msec ≠ 0), false, decide (msec = 0), 0, 0⟩
      some ((s.setCall t c).move t (c.next files))
    | _ => none
  | .add t room =>
    match s.place t, (s.call t).fds[(s.call t).n]? with
    | .adding (q :: rest), some p => some ((s.pollAdd t q p room).move t (.adding rest))
    | _, _ => none
  | .check t =>
    match s.place t, (s.call t).fds[(s.call t).n]? with
    | .adding [], some p =>
      let c := (s.call t).checked files s.mask p
      some ((s.setCall t c).move t (c.next files))
    | _, _ => none
  | .decide t =>
    match s.place t with
    | .scanned =>
      let c := { s.call t with proc := false }
      some ((s.setCall t c).move t (if 0 < c.num ∨ c.istimeout = true then .leaving else .waiting))
    | _ => none
  | .wait t =>
    match s.place t with
    | .waiting =>
      let timeout := rtTickFromMillisecond tickPerSecond (s.call t).msec
      if timeout ≠ 0 ∧ (s.call t).triggered = false then some (s.move t (.suspended (decide (0 < timeout))))
      else some ((s.setCall t (s.call t).again).move t ((s.call t).again.next files))
    | _ => none
  | .expire t =>
    match s.place t with
    | .suspended true => some (s.move t .ready)
    | _ => none
  | .back t =>
    match s.place t with
    | .ready => some ((s.setCall t (s.call t).again).move t ((s.call t).again.next files))
    | _ => none
  | .teardown t =>
    match s.place t with
    | .leaving =>
      some ({ s with queue := fun q => (s.queue q).filter fun node => !(node.polls && node.thread == t) }.move t .idle)
    | _ => none
  | .raise f events q key =>
    if q ∈ (files.poll f).getD [] ∧ events &&& key = events ∧ events.toNat < 32 then
      some { s with mask := Function.update s.mask f (s.mask f ||| events), coming := s.coming ++ [(q, key)] }
    else none
  | .wakeup q key =>
    if (q, key) ∈ s.coming then
      let r := rtWqueueWakeup key (s.queue q)
      some (({ s with coming := s.coming.erase (q, key) }.setQueue q r.2).wake r.1)
    else none
  | .lower f events => some { s with mask := Function.update s.mask f (s.mask f &&& ~~~events) }
  | .block t q =>
    match s.place t with
    | .idle => some ((s.setQueue q (s.queue q ++ [⟨t, 0, false⟩])).move t (.blocked q))
    | _ => none
  | .unblock t =>
    match s.place t with
    | .blocked q => some ((s.setQueue q ((s.queue q).erase ⟨t, 0, false⟩)).move t .idle)
    | _ => none

/-! ### One step seen by one thread -/

variable {tickPerSecond : ℤ} {files : Files F Q} {s s' : Sys T F Q} {t : T} {a : Act T F Q}

/-- What an action of the thread itself does to its place and call, when the poll functions answer `mask`. -/
inductive Moves (files : Files F Q) (mask : F → BitVec 32) (t : T) : Act T F Q → Place Q → Call → Place Q → Call → Prop
  | poll (fds : List Pollfd) (msec : ℤ) (c : Call) :
    Moves files mask t (.poll t fds msec) .idle c
      (Call.next files ⟨fds, msec, decide (msec ≠ 0), false, decide (msec = 0), 0, 0⟩)
      ⟨fds, msec, decide (msec ≠ 0), false, decide (msec = 0), 0, 0⟩
  | add (room : Bool) (q : Q) (rest : List Q) (c : Call) :
    Moves files mask t (.add t room) (.adding (q :: rest)) c (.adding rest) c
  | check (p : Pollfd) (c : Call) : c.fds[c.n]? = some p →
    Moves files mask t (.check t) (.adding []) c ((c.checked files mask p).next files) (c.checked files mask p)
  | leave (c : Call) : 0 < c.num ∨ c.istimeout = true →
    Moves files mask t (.decide t) .scanned c .leaving { c with proc := false }
  | stay (c : Call) : c.num = 0 → c.istimeout = false →
    Moves files mask t (.decide t) .scanned c .waiting { c with proc := false }
  | suspend (timer : Bool) (c : Call) : c.triggered = false →
    Moves files mask t (.wait t) .waiting c (.suspended timer) c
  | pass (c : Call) : Moves files mask t (.wait t) .waiting c (c.again.next files) c.again
  | expire (c : Call) : Moves files mask t (.expire t) (.suspended true) c .ready c
  | back (c : Call) : Moves files mask t (.back t) .ready c (c.again.next files) c.again
  | teardown (c : Call) : Moves files mask t (.teardown t) .leaving c .idle c
  | block (q : Q) (c : Call) : Moves files mask t (.block t q) .idle c (.blocked q) c
  | unblock (q : Q) (c : Call) : Moves files mask t (.unblock t) (.blocked q) c .idle c

/-- The thread does not take part in the step, or its node is woken, or the action is its own. -/
inductive Seen (files : Files F Q) (s s' : Sys T F Q) (t : T) (a : Act T F Q) : Prop
  | apart : s'.place t = s.place t → s'.call t = s.call t → Seen files s s' t a
  | woken : s'.place t = (s.place t).resume → s'.call t = { s.call t with triggered := true } → Seen files s s' t a
  | moved : Moves files s.mask t a (s.place t) (s.call t) (s'.place t) (s'.call t) → Seen files s s' t a

theorem step_seen (hstep : step tickPerSecond files s a = some s') (t : T) : Seen files s s' t a := by
  -- the action is that of the thread `u`, and only its place and call change
  have hown : ∀ u place c, s'.place = Function.update s.place u place → s'.call = Function.update s.call u c →
      (t = u → Moves files s.mask t a (s.place t) (s.call t) place c) → Seen files s s' t a := by
    intro u place c hplace hcall hmove
    by_cases htu : t = u
    · have hmoves := hmove htu
      subst htu
      refine .moved ?_
      rwa [hplace, hcall, Function.update_self, Function.update_self]
    · exact .apart (by rw [hplace, Function.update_of_ne htu]) (by rw [hcall, Function.update_of_ne htu])
  have hkept : ∀ u place, s'.place = Function.update s.place u place → s'.call = s.call →
      (t = u → Moves files s.mask t a (s.place t) (s.call t) place (s.call t)) → Seen files s s' t a := by
    intro u place hplace hcall hmove
    refine hown u place (s.call u) hplace (by rw [hcall, Function.update_eq_self]) fun htu => ?_
    rw [← htu]
    exact hmove htu
  cases a with
  | poll u fds msec =>
    simp only [step] at hstep
    split at hstep
    · next hidle =>
      cases hstep
      refine hown u _ _ rfl rfl fun htu => ?_
      subst htu
      rw [hidle]
      exact .poll fds msec _
    · cases hstep
  | add u room =>
    simp only [step] at hstep
    split at hstep
    · next q rest p hplace hp =>
      cases hstep
      refine hkept u (.adding rest) (by simp only [move_place, pollAdd_place]) (by simp only [move_call, pollAdd_call])
        fun htu => ?_
      subst htu
      rw [hplace]
      exact .add room q rest _
    · cases hstep
  | check u =>
    simp only [step] at hstep
    split at hstep
    · next p hplace hp =>
      cases hstep
      refine hown u _ _ rfl rfl fun htu => ?_
      subst htu
      rw [hplace]
      exact .check p _ hp
    · cases hstep
  | decide u =>
    simp only [step] at hstep
    split at hstep
    · next hplace =>
      cases hstep
      refine hown u _ _ rfl rfl fun htu => ?_
      subst htu
      rw [hplace]
      by_cases hend : 0 < (s.call t).num ∨ (s.call t).istimeout = true
      · rw [if_pos hend]
        exact .leave _ hend
      · rw [if_neg hend]
        rw [not_or, Nat.not_lt, Nat.le_zero, Bool.not_eq_true] at hend
        exact .stay _ hend.1 hend.2
    · cases hstep
  | wait u =>
    simp only [step] at hstep
    split at hstep
    · next hplace =>
      split at hstep
      · next hsuspend =>
        cases hstep
        refine hkept u _ rfl rfl fun htu => ?_
        subst htu
        rw [hplace]
        exact .suspend _ _ hsuspend.2
      · cases hstep
        refine hown u _ _ rfl rfl fun htu => ?_
        subst htu
        rw [hplace]
        exact .pass _
    · cases hstep
  | expire u =>
    simp only [step] at hstep
    split at hstep
    · next hplace =>
      cases hstep
      refine hkept u _ rfl rfl fun htu => ?_
      subst htu
      rw [hplace]
      exact .expire _
    · cases hstep
  | back u =>
    simp only [step] at hstep
    split at hstep
    · next hplace =>
      cases hstep
      refine hown u _ _ rfl rfl fun htu => ?_
      subst htu
      rw [hplace]
      exact .back _
    · cases hstep
  | teardown u =>
    simp only [step] at hstep
    split at hstep
    · next hplace =>
      cases hstep
      refine hkept u _ rfl rfl fun htu => ?_
      subst htu
      rw [hplace]
      exact .teardown _
    · cases hstep
  | raise f events q key =>
    simp only [step] at hstep
    split at hstep
    · cases hstep
      exact .apart rfl rfl
    · cases hstep
  | wakeup q key =>
    simp only [step] at hstep
    split at hstep
    · cases hstep
      obtain ⟨hplace, hcall, -⟩ | ⟨hplace, hcall, -⟩ := wake_thread
        (({ s with coming := s.coming.erase (q, key) }.setQueue q (rtWqueueWakeup key (s.queue q)).2))
        t (rtWqueueWakeup key (s.queue q)).1
      · exact .apart hplace hcall
      · exact .woken hplace hcall
    · cases hstep
  | lower f events =>
    cases hstep
    exact .apart rfl rfl
  | block u q =>
    simp only [step] at hstep
    split at hstep
    · next hplace =>
      cases hstep
      refine hkept u _ rfl rfl fun htu => ?_
      subst htu
      rw [hplace]
      exact .block q _
    · cases hstep
  | unblock u =>
    simp only [step] at hstep
    split at hstep
    · next q hplace =>
      cases hstep
      refine hkept u _ rfl rfl fun htu => ?_
      subst htu
      rw [hplace]
      exact .unblock q _
    · cases hstep

end RtThread.Dfs.Poll
