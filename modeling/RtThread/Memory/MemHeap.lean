import RtThread.Lib.Transition
import RtThread.Lib.Word

/-!
# The memory heap object (`memheap.c`, 32-bit)

The memory is seen through the headers in it: each field of `struct rt_memheap_item` is a map from
the address of an item. `RT_NULL` is 0, and `RT_ALIGN_SIZE` is `2 ^ k`. Sums and differences are
32-bit words. A function without a result stands for a failed assertion, or for a loop that has not
ended within its fuel. The data of the blocks, which no function looks at, is left out, and so is the lock:
calls come one after the other.
-/

namespace RtThread.Memory.MemHeap

open RtThread.Lib.Transition RtThread.Lib.Word

def memheapMagic : ℕ := 0x1ea01ea0

def memheapMask : ℕ := 0xfffffffe

def memheapUsed : ℕ := 0x01

def memheapMinialloc : ℕ := 12

variable (k : ℕ)

/-- `RT_MEMHEAP_SIZE`: the fields of `struct rt_memheap_item` take 24 bytes. -/
def memheapSize : ℕ := alignUp k 24

/-- The heap object at the address `self`, whose member `free_header` has the address `freeHeader`,
with the items of the memory. `peak` only records: the largest `pool_size - available_size` that a
call has left. -/
structure Memheap where
  self : ℕ
  freeHeader : ℕ
  startAddr : ℕ
  poolSize : ℕ
  availableSize : ℕ
  maxUsedSize : ℕ
  blockList : ℕ
  freeList : ℕ
  magic : ℕ → ℕ
  poolPtr : ℕ → ℕ
  next : ℕ → ℕ
  prev : ℕ → ℕ
  nextFree : ℕ → ℕ
  prevFree : ℕ → ℕ
  peak : ℕ

def Memheap.isUsed (h : Memheap) (p : ℕ) : Prop := h.magic p &&& memheapUsed ≠ 0

instance (h : Memheap) (p : ℕ) : Decidable (h.isUsed p) := inferInstanceAs (Decidable (_ ≠ _))

/-- `MEMITEM_SIZE`. -/
def memitemSize (h : Memheap) (p : ℕ) : ℕ := sub 32 (sub 32 (h.next p) p) (memheapSize k)

/-- `pool_size - available_size`. -/
def Memheap.used (h : Memheap) : ℕ := sub 32 h.poolSize h.availableSize

/-- What a call leaves is recorded. -/
def Memheap.record (h : Memheap) : Memheap := { h with peak := max h.peak h.used }

def Memheap.withAvailable (h : Memheap) (x : ℕ) : Memheap := { h with availableSize := x }

/-- `max_used_size` when `available_size` becomes `x` (`memheap.c:228-230` and the other places). -/
def Memheap.maxUsedWith (h : Memheap) (x : ℕ) : ℕ :=
  if h.maxUsedSize < sub 32 h.poolSize x then sub 32 h.poolSize x else h.maxUsedSize

/-- `available_size` becomes less, and `max_used_size` may become more. -/
def Memheap.charge (h : Memheap) (x : ℕ) : Memheap :=
  { h with availableSize := x, maxUsedSize := h.maxUsedWith x }

/-- `header_ptr->magic |= RT_MEMHEAP_USED`. -/
def useItem (h : Memheap) (p : ℕ) : Memheap :=
  { h with magic := Function.update h.magic p (h.magic p ||| memheapUsed) }

/-- `header_ptr->magic &= ~RT_MEMHEAP_USED`. -/
def unuseItem (h : Memheap) (p : ℕ) : Memheap :=
  { h with magic := Function.update h.magic p (h.magic p &&& memheapMask) }

/-- The item at `p` becomes the first of the free list (`memheap.c:216-219` and the other places). -/
def insertFree (h : Memheap) (p : ℕ) : Memheap :=
  let nextFree := Function.update h.nextFree p (h.nextFree h.freeList)
  let prevFree := Function.update h.prevFree p h.freeList
  let prevFree := Function.update prevFree (nextFree h.freeList) p
  { h with nextFree := Function.update nextFree h.freeList p, prevFree := prevFree }

/-- The item at `p` leaves the free list (`memheap.c:210-211` and the other places). -/
def removeFree (h : Memheap) (p : ℕ) : Memheap :=
  let prevFree := Function.update h.prevFree (h.nextFree p) (h.prevFree p)
  { h with prevFree := prevFree, nextFree := Function.update h.nextFree (prevFree p) (h.nextFree p) }

/-- The links of an item that is in use (`memheap.c:212-213`). -/
def clearFree (h : Memheap) (p : ℕ) : Memheap :=
  { h with nextFree := Function.update h.nextFree p 0, prevFree := Function.update h.prevFree p 0 }

/-- A new item at `q` behind the item at `p` (`memheap.c:197-207` and the other places). -/
def newItem (h : Memheap) (p q : ℕ) : Memheap :=
  let prev := Function.update h.prev q p
  let next := Function.update h.next q (h.next p)
  { h with
    magic := Function.update h.magic q memheapMagic
    poolPtr := Function.update h.poolPtr q h.self
    prev := Function.update prev (next p) q
    next := Function.update next p q }

/-- The item at `q` becomes part of the item at `p` before it (`memheap.c:546-547`,
`memheap.c:569-570` and the other places). -/
def mergeItem (h : Memheap) (p q : ℕ) : Memheap :=
  { h with prev := Function.update h.prev (h.next q) p, next := Function.update h.next p (h.next q) }

/-- `rt_memheap_init` (`memheap.c:50-121`). -/
def rtMemheapInit (h : Memheap) (startAddr size : ℕ) : Memheap :=
  let poolSize := size / 2 ^ k * 2 ^ k
  let availableSize := sub 32 poolSize (2 * memheapSize k % 2 ^ 32)
  let hdr := h.freeHeader
  -- the free list header
  let h := { h with
    startAddr := startAddr
    poolSize := poolSize
    availableSize := availableSize
    maxUsedSize := sub 32 poolSize availableSize
    peak := sub 32 poolSize availableSize
    freeList := hdr
    magic := Function.update h.magic hdr memheapMagic
    poolPtr := Function.update h.poolPtr hdr h.self
    next := Function.update h.next hdr 0
    prev := Function.update h.prev hdr 0
    nextFree := Function.update h.nextFree hdr hdr
    prevFree := Function.update h.prevFree hdr hdr }
  -- the first big memory block
  let tail := add 32 (add 32 startAddr availableSize) (memheapSize k)
  let h := { h with
    blockList := startAddr
    magic := Function.update h.magic startAddr memheapMagic
    poolPtr := Function.update h.poolPtr startAddr h.self
    next := Function.update h.next startAddr tail
    prev := Function.update h.prev startAddr tail
    nextFree := Function.update h.nextFree startAddr startAddr
    prevFree := Function.update h.prevFree startAddr startAddr }
  let h := insertFree h startAddr
  -- the tailer block, which is in use
  { h with
    magic := Function.update h.magic tail (memheapMagic ||| memheapUsed)
    poolPtr := Function.update h.poolPtr tail h.self
    next := Function.update h.next tail startAddr
    prev := Function.update h.prev tail startAddr
    nextFree := Function.update h.nextFree tail 0
    prevFree := Function.update h.prevFree tail 0 }

/-- The search on the free list (`memheap.c:163-173`): the item it ends on and `free_size`. -/
def searchLoop (h : Memheap) (size : ℕ) : ℕ → ℕ → ℕ → Option (ℕ × ℕ)
  | 0, _, _ => none
  | fuel + 1, p, freeSize =>
    if p ≠ h.freeList ∧ freeSize < size then
      let freeSize := memitemSize k h p
      searchLoop h size fuel (if freeSize < size then h.nextFree p else p) freeSize
    else some (p, freeSize)

/-- A size as the calls use it (`memheap.c:147-150`, `memheap.c:301-304`). -/
def requestSize (size : ℕ) : ℕ :=
  if alignUp k size < memheapMinialloc then memheapMinialloc else alignUp k size

/-- The free item at `p` is taken, split or whole (`memheap.c:182-253`). -/
def takeItem (h : Memheap) (p freeSize size : ℕ) : Memheap :=
  let h :=
    if add 32 (add 32 size (memheapSize k)) memheapMinialloc ≤ freeSize then
      let q := add 32 (add 32 p size) (memheapSize k)
      let h := insertFree (clearFree (removeFree (newItem h p q) p) p) q
      h.charge (sub 32 (sub 32 h.availableSize size) (memheapSize k))
    else
      let h := h.charge (sub 32 h.availableSize freeSize)
      clearFree (removeFree h p) p
  useItem h p

/-- The list has fewer items than there are bytes. -/
def Memheap.fuel (h : Memheap) : ℕ := 2 * h.poolSize + 2

/-- `rt_memheap_alloc` (`memheap.c:138-281`): the address it returns. -/
def rtMemheapAlloc (h : Memheap) (size : ℕ) : Option (ℕ × Memheap) :=
  let size := requestSize k size
  if size < h.availableSize then
    (searchLoop k h size h.fuel (h.nextFree h.freeList) 0).map fun x =>
      if size ≤ x.2 then (add 32 x.1 (memheapSize k), (takeItem k h x.1 x.2 size).record)
      else (0, h.record)
  else some (0, h.record)

/-- The item at `p` is merged with the previous neighbour if that is free (`memheap.c:535-553`):
the header pointer and `insert_header` afterwards. -/
def mergePrev (h : Memheap) (p : ℕ) : ℕ × Bool × Memheap :=
  if ¬ h.isUsed (h.prev p) then
    (h.prev p, false, mergeItem (h.withAvailable (add 32 h.availableSize (memheapSize k))) (h.prev p) p)
  else (p, true, h)

/-- The item at `p` is merged with the next neighbour if that is free (`memheap.c:556-575`). -/
def mergeNext (h : Memheap) (p : ℕ) : Memheap :=
  let n := h.next p
  if ¬ h.isUsed n then
    removeFree (mergeItem (h.withAvailable (add 32 h.availableSize (memheapSize k))) p n) n
  else h

/-- `rt_memheap_free` (`memheap.c:495-595`). -/
def rtMemheapFree (h : Memheap) (ptr : ℕ) : Option Memheap :=
  if ptr = 0 then some h.record
  else
    let p := sub 32 ptr (memheapSize k)
    if h.magic p &&& memheapMask = memheapMagic ∧ h.isUsed p ∧
        h.magic (h.next p) &&& memheapMask = memheapMagic ∧ h.poolPtr p = h.self then
      let h := unuseItem h p
      let h := h.withAvailable (add 32 h.availableSize (memitemSize k h p))
      let x := mergePrev k h p
      let h := mergeNext k x.2.2 x.1
      some (if x.2.1 = true then insertFree h x.1 else h).record
    else none

/-- The next free item gives the item at `p` the bytes it lacks (`memheap.c:349-404`). -/
def growItem (h : Memheap) (p oldsize newsize : ℕ) : Memheap :=
  let h := h.charge (sub 32 h.availableSize (sub 32 newsize oldsize))
  let n := h.next p
  let h := mergeItem (removeFree h n) (h.prev n) n
  let q := add 32 (add 32 p (memheapSize k)) newsize
  insertFree (newItem h p q) q

/-- The new item at `q` is merged with the next neighbour if that is free (`memheap.c:456-474`). -/
def absorbNext (h : Memheap) (q : ℕ) : Memheap :=
  let n := h.next q
  if ¬ h.isUsed n then
    removeFree (mergeItem (h.withAvailable (sub 32 h.availableSize (memitemSize k h n))) q n) n
  else h

/-- The item at `p` gives its end back (`memheap.c:431-489`). -/
def shrinkItem (h : Memheap) (p newsize : ℕ) : Memheap :=
  let q := add 32 (add 32 p newsize) (memheapSize k)
  let h := insertFree (absorbNext k (newItem h p q) q) q
  h.withAvailable (add 32 h.availableSize (memitemSize k h q))

/-- `rt_memheap_realloc` (`memheap.c:284-492`). -/
def rtMemheapRealloc (h : Memheap) (ptr newsize : ℕ) : Option (ℕ × Memheap) :=
  if newsize = 0 then (rtMemheapFree k h ptr).map fun h => (0, h)
  else
    let newsize := requestSize k newsize
    if ptr = 0 then rtMemheapAlloc k h newsize
    else
      let p := sub 32 ptr (memheapSize k)
      let oldsize := memitemSize k h p
      if oldsize < newsize then
        let n := h.next p
        if p < n then
          if ¬ h.isUsed n ∧ add 32 newsize memheapMinialloc < add 32 (memitemSize k h n) oldsize then
            some (ptr, (growItem k h p oldsize newsize).record)
          else
            (rtMemheapAlloc k h newsize).bind fun x =>
              if x.1 ≠ 0 then (rtMemheapFree k x.2 ptr).map fun h => (x.1, h) else some x
        else none
      else if oldsize ≤ add 32 (add 32 newsize (memheapSize k)) memheapMinialloc then some (ptr, h.record)
      else some (ptr, (shrinkItem k h p newsize).record)

end RtThread.Memory.MemHeap
