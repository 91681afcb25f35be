import RtThread.Lib.Chain
import RtThread.Lib.Flags
import RtThread.Lib.Places
import RtThread.Lib.Transition

/-!
# Signals (`signal.c`)

The signals of all threads with the pool their `siginfo_node`s come from. `rt_thread_kill` enables the
interrupts between the test of `sig_pending` and the append of the node, and `rt_thread_handle_sig` while a
handler runs, so each of the two takes two steps, with those of others in between.
-/

namespace RtThread.Ipc.Signal

open RtThread.Lib.Chain RtThread.Lib.Flags RtThread.Lib.Places RtThread.Lib.Transition

variable {T : Type} [DecidableEq T]

/-- `sig_mask` (`signal.c:29`). -/
def sigMask (sigNo : ℕ) : BitVec 32 := 1#32 <<< sigNo

/-- `sig_valid` (`signal.c:30`), `RT_SIG_MAX` being 32. -/
def sigValid (sigNo : ℤ) : Bool := decide (0 ≤ sigNo) && decide (sigNo < 32)

structure Siginfo where
  siSigno : ℕ
  siCode : ℕ
  siValue : ℕ
deriving DecidableEq

/-- The values of a `rt_sighandler_t`; the null pointer is `SIG_DFL`. -/
inductive Sighandler
  | null
  | sigIgn
  | sigErr
  | signalDefaultHandler
  | user (f : ℕ)
deriving DecidableEq

/-- What a pointer of `signal.c` points to: the `siginfo_node` `i`, its member `list`, which lies behind
its `si`, or neither. -/
inductive Ptr
  | null
  | node (i : ℕ)
  | member (i : ℕ)
  | stray
deriving DecidableEq

/-- The signal fields of `struct rt_thread`. `handling` are the nodes and the signals of the calls of
`rt_thread_handle_sig` that are inside a handler, `waitSet` is the set of a call of `rt_signal_wait` that is
suspended, and `info` what the last one has stored through its `si`. -/
structure ThreadSig where
  sigPending : BitVec 32
  sigMask : BitVec 32
  sigVectors : Option (ℕ → Sighandler)
  siList : Ptr
  handling : List (ℕ × ℕ)
  waitSet : Option (BitVec 32)
  info : Siginfo

/-- `killing` are the calls of `rt_thread_kill` that have not appended their node yet. After a pointer that does not
point to a node has been followed, or a list that does not end, the state is `lost`. -/
structure State (T : Type) where
  thread : T → ThreadSig
  si : ℕ → Siginfo
  next : ℕ → Option ℕ
  pool : List ℕ
  killing : List (T × ℕ)
  lost : Bool

def State.set (s : State T) (t : T) (th : ThreadSig) : State T := { s with thread := Function.update s.thread t th }

def State.setList (s : State T) (t : T) (siList : Ptr) : State T := s.set t { s.thread t with siList := siList }

/-- `rt_slist_entry(node, struct siginfo_node, list)`, which is no null pointer for a null `node`. -/
def slistEntry : Option ℕ → Ptr
  | some i => .node i
  | none => .stray

/-- A `struct rt_slist_node *` as it is. -/
def listMember : Option ℕ → Ptr
  | some i => .member i
  | none => .null

/-- What `rt_signal_install` stores for a handler (`signal.c:153-155`). -/
def installed : Sighandler → Sighandler
  | .sigIgn => .null
  | .null => .signalDefaultHandler
  | handler => handler

/-- `rt_signal_install` (`signal.c:136-160`). -/
def rtSignalInstall (s : State T) (t : T) (signo : ℤ) (handler : Sighandler) : State T × Sighandler :=
  if sigValid signo then
    let vectors := (s.thread t).sigVectors.getD fun _ => .signalDefaultHandler
    (s.set t { s.thread t with sigVectors := some (Function.update vectors signo.toNat (installed handler)) },
      vectors signo.toNat)
  else (s, .sigErr)

/-- `rt_signal_mask` (`signal.c:162-172`). -/
def rtSignalMask (s : State T) (t : T) (signo : ℕ) : State T :=
  s.set t { s.thread t with sigMask := (s.thread t).sigMask &&& ~~~sigMask signo }

/-- `rt_signal_unmask` (`signal.c:174-193`). -/
def rtSignalUnmask (s : State T) (t : T) (signo : ℕ) : State T :=
  s.set t { s.thread t with sigMask := (s.thread t).sigMask ||| sigMask signo }

/-- The loop of `rt_thread_kill` (`signal.c:426-435`): the node it finds, if it reaches the end. -/
def killSearch (s : State T) (sig : ℕ) : ℕ → Ptr → Option (Option ℕ)
  | _, .null => some none
  | fuel + 1, .member i =>
    if (s.si i).siSigno = sig then some (some i) else killSearch s sig fuel (listMember (s.next i))
  | _, _ => none

/-- `si` (`signal.c:410-412`), with `SI_USER`. -/
def killInfo (sig : ℕ) : Siginfo := ⟨sig, 1, 0⟩

/-- `rt_thread_kill` up to the allocation (`signal.c:407-446`). The pointer of a signal that is pending already is
cast to one to a member `list` (`signal.c:421`). -/
def rtThreadKill (n : ℕ) (s : State T) (t : T) (sig : ℤ) : State T :=
  if sigValid sig then
    let signo := sig.toNat
    let th := s.thread t
    let asMember := match th.siList with
      | .node _ => Ptr.stray
      | ptr => ptr
    if has th.sigPending (sigMask signo) then
      match killSearch s signo (n + 1) asMember with
      | none => { s with lost := true }
      | some (some i) => { s with si := Function.update s.si i (killInfo signo) }
      | some none => { s with killing := (t, signo) :: s.killing }
    else
      { s.set t { th with sigPending := th.sigPending ||| sigMask signo } with killing := (t, signo) :: s.killing }
  else s

/-- The walk of `rt_slist_append` (`rtservice.h:198-199`). -/
def slistLast (next : ℕ → Option ℕ) : ℕ → ℕ → Option ℕ
  | 0, _ => none
  | fuel + 1, i =>
    match next i with
    | none => some i
    | some j => slistLast next fuel j

/-- `rt_slist_append` (`rtservice.h:194-204`). -/
def rtSlistAppend (n : ℕ) (s : State T) (l node : ℕ) : State T :=
  match slistLast s.next (n + 1) l with
  | none => { s with lost := true }
  | some z => { s with next := Function.update (Function.update s.next z (some node)) node none }

/-- `si_node` from the pool, filled in (`signal.c:448-452`). -/
def State.alloc (s : State T) (i : ℕ) (pool : List ℕ) (sig : ℕ) : State T :=
  { s with pool := pool, next := Function.update s.next i none, si := Function.update s.si i (killInfo sig) }

/-- The rest of `rt_thread_kill` (`signal.c:448-471`). -/
def killAppend (n : ℕ) (s : State T) (t : T) (sig : ℕ) : State T :=
  match s.pool with
  | [] => s
  | i :: pool =>
    match (s.thread t).siList with
    | .null => (s.alloc i pool sig).setList t (.node i)
    | .node l => rtSlistAppend n (s.alloc i pool sig) l i
    | _ => { s.alloc i pool sig with lost := true }

/-- `rt_thread_handle_sig` (`signal.c:301-326`) up to the call of the handler. -/
def rtThreadHandleSig (s : State T) (t : T) : Option (State T) :=
  let th := s.thread t
  if has th.sigPending th.sigMask && th.waitSet.isNone then
    match th.siList with
    | .null => none
    | .node i =>
      let siList := if (s.next i).isNone then .null else slistEntry (s.next i)
      let s := s.set t { th with siList := siList, handling := (i, (s.si i).siSigno) :: th.handling }
      if th.sigVectors.isNone then some { s with lost := true } else some s
    | _ => some { s with lost := true }
  else none

/-- `rt_thread_handle_sig` after the handler (`signal.c:328-334`). -/
def handled (s : State T) (t : T) : Option (State T) :=
  let th := s.thread t
  match th.handling, th.waitSet with
  | (i, signo) :: handling, none =>
    some { s.set t { th with sigPending := th.sigPending &&& ~~~sigMask signo, handling := handling } with
      pool := i :: s.pool }
  | _, _ => none

/-- The test of the loop of `rt_signal_wait` (`signal.c:269`). -/
def wanted (s : State T) (set : BitVec 32) (i : ℕ) : Bool := has (sigMask (s.si i).siSigno) set

/-- The loop of `rt_signal_wait` (`signal.c:264-285`): the node it finds and the one in front of it, if it
reaches the end. -/
def waitSearch (s : State T) (set : BitVec 32) : ℕ → Option ℕ → Ptr → Option (Option (Option ℕ × ℕ))
  | _, _, .null => some none
  | fuel + 1, prev, .node i =>
    if wanted s set i then some (some (prev, i))
    else waitSearch s set fuel (some i) (slistEntry (s.next i))
  | _, _, _ => none

/-- `rt_signal_wait` from `__done` (`signal.c:261-285`). -/
def waitDone (n : ℕ) (s : State T) (t : T) (set : BitVec 32) : State T :=
  let th := s.thread t
  match waitSearch s set (n + 1) none th.siList with
  | none => { s with lost := true }
  | some none => s
  | some (some (prev, i)) =>
    let th := { th with info := s.si i, sigPending := th.sigPending &&& ~~~sigMask (s.si i).siSigno }
    match prev with
    | some p => { s.set t th with next := Function.update s.next p (s.next i), pool := i :: s.pool }
    | none => { s.set t { th with siList := listMember (s.next i) } with pool := i :: s.pool }

/-- `rt_signal_wait` up to the suspension (`signal.c:206-243`). -/
def rtSignalWait (n : ℕ) (s : State T) (t : T) (set : BitVec 32) (timeout : ℤ) : State T :=
  if set = 0 then s
  else
    let th := { s.thread t with info := ⟨0, 0, 0⟩ }
    if has th.sigPending set then waitDone n (s.set t th) t set
    else if timeout = 0 then s.set t th
    else s.set t { th with waitSet := some set }

/-- `rt_signal_wait` after the suspension (`signal.c:245-285`). `timedOut` is `tid->error == -RT_ETIMEOUT`. -/
def waitResumed (n : ℕ) (s : State T) (t : T) (timedOut : Bool) : Option (State T) :=
  (s.thread t).waitSet.map fun set =>
    let s := s.set t { s.thread t with waitSet := none }
    if timedOut then s else waitDone n s t set

inductive Act (T : Type)
  | install (t : T) (signo : ℤ) (handler : Sighandler)
  | mask (t : T) (signo : ℕ)
  | unmask (t : T) (signo : ℕ)
  | kill (t : T) (sig : ℤ)
  | append (t : T) (sig : ℕ)
  | handle (t : T)
  | handled (t : T)
  | wait (t : T) (set : BitVec 32) (timeout : ℤ)
  | resume (t : T) (timedOut : Bool)
deriving DecidableEq

/-- One step. A thread that is suspended in `rt_signal_wait` calls nothing else. -/
def step (n : ℕ) (s : State T) (a : Act T) : Option (State T) :=
  if s.lost then none
  else match a with
    | .install t signo handler =>
      if (s.thread t).waitSet.isNone then some (rtSignalInstall s t signo handler).1 else none
    | .mask t signo => if (s.thread t).waitSet.isNone then some (rtSignalMask s t signo) else none
    | .unmask t signo => if (s.thread t).waitSet.isNone then some (rtSignalUnmask s t signo) else none
    | .kill t sig => some (rtThreadKill n s t sig)
    | .append t sig =>
      if (t, sig) ∈ s.killing then some (killAppend n { s with killing := s.killing.erase (t, sig) } t sig) else none
    | .handle t => rtThreadHandleSig s t
    | .handled t => handled s t
    | .wait t set timeout => if (s.thread t).waitSet.isNone then some (rtSignalWait n s t set timeout) else none
    | .resume t timedOut => waitResumed n s t timedOut

/-- The threads after `_rt_thread_init` (`thread.c:191-196`) and the pool after `rt_system_signal_init`. -/
def boot (n : ℕ) : State T :=
  { thread := fun _ => ⟨0, 0, none, .null, [], none, ⟨0, 0, 0⟩⟩
    si := fun _ => ⟨0, 0, 0⟩
    next := fun _ => none
    pool := List.range n
    killing := []
    lost := false }

end RtThread.Ipc.Signal
