import RtThread.Lib.Transition
import RtThread.Lib.Word
import RtThread.Lib.Chain
import RtThread.Ipc.Base

/-!
# Memory pools (`mempool.c:77-122`, `mempool.c:304-448`)

A pool of blocks of one size. The word in front of a block is the link of the free list while
the block is free and the address of the pool while it is allocated. A thread that finds no
free block is put on the suspend list and looks again when it is made ready. A block is named
by its index in the pool.
-/

namespace RtThread.Memory.MemPool

open RtThread.Lib.Word RtThread.Lib.Transition RtThread.Lib.Chain RtThread.Ipc.Base

/-- A pointer in the word in front of a block, or in `block_list`. -/
inductive Link where
  | null
  | block (i : ℕ)
  | pool
  deriving DecidableEq, Repr

def Link.next : Link → Option ℕ
  | .block i => some i
  | _ => none

/-- `struct rt_mempool` (`rtdef.h:800-815`). Every thread object takes more than a byte of the
address space, so that the number of the waiting threads has no limit here. -/
structure RtMempool (T : Type*) where
  size : ℕ
  blockSize : ℕ
  blockList : Link
  blockTotalCount : ℕ
  blockFreeCount : ℕ
  suspendThread : List T
  suspendThreadCount : ℕ

structure State (T : Type*) where
  mp : RtMempool T
  word : ℕ → Link
  thread : T → Thread
  tick : ℕ

variable {T : Type*}

/-- The loop of `rt_mp_init` (`mempool.c:109-114`). -/
def rtMpInitLoop (word : ℕ → Link) : ℕ → ℕ → Link
  | 0 => word
  | offset + 1 => Function.update (rtMpInitLoop word offset) offset (.block (offset + 1))

/-- `rt_mp_init` (`mempool.c:77-122`), with `RT_ALIGN_SIZE = 2 ^ k` and 4-byte pointers; `word` is
what the memory of the pool held before. -/
def rtMpInit (k : ℕ) (word : ℕ → Link) (size blockSize : ℕ) (thread : T → Thread) (tick : ℕ) : State T :=
  let size := size / 2 ^ k * 2 ^ k
  let blockSize := alignUp k blockSize
  let total := size / add 32 blockSize 4
  ⟨⟨size, blockSize, .block 0, total, total, [], 0⟩,
    Function.update (rtMpInitLoop word total) (total - 1) .null, thread, tick⟩

/-- How a pass of `rt_mp_alloc` ends. -/
inductive Outcome where
  | failed
  | suspended (time : ℤ) (beforeSleep : ℕ)
  | allocated (block : ℕ)

/-- A block is taken off the list (`mempool.c:371-381`); `block_list` is asserted not to be null. -/
def takeBlock (s : State T) : Option (State T × ℕ) :=
  match s.mp.blockList with
  | .block i =>
    some ({ s with
      mp := { s.mp with blockFreeCount := dec 32 s.mp.blockFreeCount, blockList := s.word i }
      word := Function.update s.word i .pool }, i)
  | _ => none

variable [DecidableEq T]

/-- The thread is put on the suspend list, at its front (`mempool.c:332-349`). -/
def suspendOn (s : State T) (t : T) (time : ℤ) : State T :=
  { s with
    mp := { s.mp with
      suspendThread := t :: s.mp.suspendThread
      suspendThreadCount := s.mp.suspendThreadCount + 1 }
    thread := Function.update s.thread t (({ s.thread t with error := .eok } : Thread).suspend time) }

/-- One pass of the loop of `rt_mp_alloc` (`mempool.c:317-389`). -/
def rtMpAllocPass (s : State T) (t : T) (time : ℤ) (beforeSleep : ℕ) : Option (State T × Outcome) :=
  if s.mp.blockFreeCount = 0 then
    if time = 0 then
      some ({ s with thread := Function.update s.thread t { s.thread t with error := .etimeout } }, .failed)
    else some (suspendOn s t time, .suspended time (if 0 < time then s.tick else beforeSleep))
  else (takeBlock s).map fun r => (r.1, .allocated r.2)

/-- `rt_mp_alloc` up to its first `rt_schedule` or its return. -/
def rtMpAlloc (s : State T) (t : T) (time : ℤ) : Option (State T × Outcome) := rtMpAllocPass s t time 0

/-- `rt_mp_alloc` after `rt_schedule` (`mempool.c:357-367`), up to the next one or the return. -/
def rtMpAllocResume (s : State T) (t : T) (time : ℤ) (beforeSleep : ℕ) : Option (State T × Outcome) :=
  if (s.thread t).error ≠ .eok then some (s, .failed)
  else rtMpAllocPass s t (recalculate time beforeSleep s.tick).1 beforeSleep

/-- How `rt_mp_free` ends: with a thread made ready or without, or the head of the empty suspend
list is taken for a thread. -/
inductive FreeResult (T : Type*) where
  | freed (s : State T) (woken : Option T)
  | emptyList

/-- The block is linked in at the front of the list (`mempool.c:414-419`). -/
def putBlock (s : State T) (block : ℕ) : State T :=
  { s with
    mp := { s.mp with blockFreeCount := inc 32 s.mp.blockFreeCount, blockList := .block block }
    word := Function.update s.word block s.mp.blockList }

/-- The first thread of the suspend list is resumed (`mempool.c:424-435`). -/
def resumeFirst (s : State T) (w : T) (rest : List T) : State T :=
  { s with
    mp := { s.mp with suspendThread := rest, suspendThreadCount := s.mp.suspendThreadCount - 1 }
    thread := Function.update s.thread w ({ s.thread w with error := .eok } : Thread).resume }

/-- `rt_mp_free` (`mempool.c:398-448`); the pool is found in the word in front of the block. -/
def rtMpFree (s : State T) (block : ℕ) : Option (FreeResult T) :=
  match s.word block with
  | .pool =>
    if 0 < s.mp.suspendThreadCount then
      match s.mp.suspendThread with
      | [] => some .emptyList
      | w :: rest => some (.freed (resumeFirst (putBlock s block) w rest) (some w))
    else some (.freed (putBlock s block) none)
  | _ => none

/-- `rt_thread_timeout` of a thread suspended on the pool (`thread.c:747-769`). -/
def rtThreadTimeout (s : State T) (t : T) : State T :=
  { s with
    mp := { s.mp with suspendThread := s.mp.suspendThread.erase t }
    thread := Function.update s.thread t (s.thread t).timeout }

end RtThread.Memory.MemPool
