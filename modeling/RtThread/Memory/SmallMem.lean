import RtThread.Lib.Bytes
import RtThread.Lib.Word

/-!
# The small-memory heap (`mem.c`, 32-bit, without `RT_USING_MEMTRACE`)

The memory is one of bytes, indexed by the offset from `heap_ptr`; a `struct heap_mem` pointer
is the offset of its header. `RT_ALIGN_SIZE` is `2 ^ k`, at most `2 ^ 30` in the proofs, so that
two headers have less than `2 ^ 32` bytes. A pointer that the callers see is an address, and
`RT_NULL` is 0. Sums and differences are 32-bit words. A function without a
result stands for a failed assertion, or for a loop that has not ended within its fuel.
-/

namespace RtThread.Memory.SmallMem

open RtThread.Lib.Bytes RtThread.Lib.Word

def heapMagic : ℕ := 0x1ea0

def minSize : ℕ := 12

variable (k : ℕ)

def minSizeAligned : ℕ := alignUp k minSize

/-- `SIZEOF_STRUCT_MEM`: the fields of `struct heap_mem` take 12 bytes. -/
def sizeofStructMem : ℕ := alignUp k 12

/-! ### The fields of a header -/

def magicOf (m : Mem) (p : ℕ) : ℕ := load 2 m p

def usedOf (m : Mem) (p : ℕ) : ℕ := load 2 m (p + 2)

def nextOf (m : Mem) (p : ℕ) : ℕ := load 4 m (p + 4)

def prevOf (m : Mem) (p : ℕ) : ℕ := load 4 m (p + 8)

def setMagic (m : Mem) (p v : ℕ) : Mem := store 2 m p v

def setUsed (m : Mem) (p v : ℕ) : Mem := store 2 m (p + 2) v

def setNext (m : Mem) (p v : ℕ) : Mem := store 4 m (p + 4) v

def setPrev (m : Mem) (p v : ℕ) : Mem := store 4 m (p + 8) v

/-- The static variables; `lfree` is an offset. -/
structure Heap where
  heapPtr : ℕ
  memSizeAligned : ℕ
  mem : Mem
  lfree : ℕ
  usedMem : ℕ
  maxMem : ℕ

/-- The offset of `heap_end`. -/
def Heap.heapEnd (h : Heap) : ℕ := h.memSizeAligned + sizeofStructMem k

/-- `rt_system_heap_init` (`mem.c:204-257`); no heap when the addresses are refused. -/
def rtSystemHeapInit (m : Mem) (beginAddr endAddr : ℕ) : Option Heap :=
  let beginAlign := alignUp k beginAddr
  let endAlign := endAddr / 2 ^ k * 2 ^ k
  let headers := 2 * sizeofStructMem k % 2 ^ 32
  if headers < endAlign ∧ beginAlign ≤ sub 32 endAlign headers then
    let memSizeAligned := sub 32 (sub 32 endAlign beginAlign) headers
    let last := add 32 memSizeAligned (sizeofStructMem k)
    let m := setUsed (setPrev (setNext (setMagic m 0 heapMagic) 0 last) 0 0) 0 0
    let m := setPrev (setNext (setUsed (setMagic m last heapMagic) last 1) last last) last last
    some ⟨beginAlign, memSizeAligned, m, 0, 0, 0⟩
  else none

/-- The block at `n` becomes part of the block at `p` before it (`mem.c:174-179`,
`mem.c:187-192`). -/
def combine (h : Heap) (p n : ℕ) : Heap :=
  let m := setNext h.mem p (nextOf h.mem n)
  { h with
    lfree := if h.lfree = n then p else h.lfree
    mem := setPrev m (nextOf m n) p }

/-- "plug hole forward" (`mem.c:165-180`). -/
def plugForward (h : Heap) (p : ℕ) : Heap :=
  let n := nextOf h.mem p
  if p ≠ n ∧ usedOf h.mem n = 0 ∧ n ≠ h.heapEnd k then combine h p n else h

/-- "plug hole backward" (`mem.c:182-193`). -/
def plugBackward (h : Heap) (p : ℕ) : Heap :=
  let q := prevOf h.mem p
  if q ≠ p ∧ usedOf h.mem q = 0 then combine h q p else h

/-- `plug_holes` (`mem.c:156-194`). -/
def plugHoles (h : Heap) (p : ℕ) : Option Heap :=
  if p < h.heapEnd k ∧ usedOf h.mem p = 0 then some (plugBackward (plugForward k h p) p) else none

/-- The data size of a block: `mem->next - (ptr + SIZEOF_STRUCT_MEM)`. -/
def dataSize (m : Mem) (p : ℕ) : ℕ := sub 32 (nextOf m p) (add 32 p (sizeofStructMem k))

/-- The search of `rt_malloc` (`mem.c:305-312`): the offset of the block, if one is found. -/
def searchLoop (h : Heap) (size : ℕ) : ℕ → ℕ → Option (Option ℕ)
  | 0, _ => none
  | fuel + 1, p =>
    if p < sub 32 h.memSizeAligned size then
      if usedOf h.mem p = 0 ∧ size ≤ dataSize k h.mem p then some (some p)
      else searchLoop h size fuel (nextOf h.mem p)
    else some none

/-- The loop that moves `lfree` to the next free block (`mem.c:383-384`). -/
def lfreeLoop (h : Heap) : ℕ → ℕ → Option ℕ
  | 0, _ => none
  | fuel + 1, p =>
    if usedOf h.mem p ≠ 0 ∧ p ≠ h.heapEnd k then lfreeLoop h fuel (nextOf h.mem p) else some p

/-- A new free block at `q` takes the end of the block at `p` (`mem.c:329-348`,
`mem.c:478-491`). -/
def splitBlock (h : Heap) (p q : ℕ) : Heap :=
  let m := setPrev (setNext (setUsed (setMagic h.mem q heapMagic) q 0) q (nextOf h.mem p)) q p
  let m := setNext m p q
  let n := nextOf m q
  { h with mem := if n ≠ add 32 h.memSizeAligned (sizeofStructMem k) then setPrev m n q else m }

def Heap.count (h : Heap) (size : ℕ) : Heap :=
  let used := add 32 h.usedMem size
  { h with usedMem := used, maxMem := if h.maxMem < used then used else h.maxMem }

/-- The block at `p` is taken, whole or split (`mem.c:316-372`). -/
def takeBlock (h : Heap) (p size : ℕ) : Heap :=
  let h :=
    if add 32 (add 32 size (sizeofStructMem k)) (minSizeAligned k) ≤ dataSize k h.mem p then
      -- `mem->used` is set before the `prev` of the block behind, which is another header
      let h := splitBlock k h p (add 32 (add 32 p (sizeofStructMem k)) size)
      Heap.count { h with mem := setUsed h.mem p 1 } (add 32 size (sizeofStructMem k))
    else
      let h := { h with mem := setUsed h.mem p 1 }
      h.count (sub 32 (nextOf h.mem p) p)
  { h with mem := setMagic h.mem p heapMagic }

/-- The loops of `rt_malloc` have fewer passes than there are offsets. -/
def Heap.fuel (h : Heap) : ℕ := h.heapEnd k + 1

/-- `lfree` after the block at `p` was taken (`mem.c:380-387`). -/
def advanceLfree (h : Heap) (p : ℕ) : Option Heap :=
  if p = h.lfree then
    (lfreeLoop k h (h.fuel k) h.lfree).bind fun q =>
      if q = h.heapEnd k ∨ usedOf h.mem q = 0 then some { h with lfree := q } else none
  else some h

/-- The assertions at the end of `rt_malloc` (`mem.c:390-392`). -/
def mallocAssert (h : Heap) (p size : ℕ) : Prop :=
  h.heapPtr + p + sizeofStructMem k + size ≤ h.heapPtr + h.heapEnd k ∧
    (h.heapPtr + p + sizeofStructMem k) % 2 ^ k = 0 ∧ (h.heapPtr + p) % 2 ^ k = 0

instance (h : Heap) (p size : ℕ) : Decidable (mallocAssert k h p size) :=
  inferInstanceAs (Decidable (_ ∧ _))

/-- `rt_malloc` (`mem.c:272-410`). -/
def rtMalloc (h : Heap) (size : ℕ) : Option (Heap × ℕ) :=
  if size = 0 then some (h, 0)
  else
    let size := alignUp k size
    if h.memSizeAligned < size then some (h, 0)
    else
      let size := if size < minSizeAligned k then minSizeAligned k else size
      (searchLoop k h size (h.fuel k) h.lfree).bind fun
        | none => some (h, 0)
        | some p => (advanceLfree k (takeBlock k h p size) p).bind fun h =>
          if mallocAssert k h p size then some (h, h.heapPtr + p + sizeofStructMem k) else none

/-- `rt_free` (`mem.c:546-609`). -/
def rtFree (h : Heap) (rmem : ℕ) : Option Heap :=
  if rmem = 0 then some h
  else if rmem % 2 ^ k = 0 ∧ h.heapPtr ≤ rmem ∧ rmem < h.heapPtr + h.heapEnd k then
    let p := sub 32 (sub 32 rmem (sizeofStructMem k)) h.heapPtr
    if usedOf h.mem p ≠ 0 ∧ magicOf h.mem p = heapMagic then
      let m := setMagic (setUsed h.mem p 0) p heapMagic
      plugHoles k { h with
        mem := m
        lfree := if p < h.lfree then p else h.lfree
        usedMem := sub 32 h.usedMem (sub 32 (nextOf m p) p) } p
    else none
  else none

/-- `rt_memcpy` of `n` bytes between two blocks, which do not overlap. -/
def rtMemcpy (m : Mem) (dst src n : ℕ) : Mem := fun x =>
  if dst ≤ x ∧ x < dst + n then m (src + (x - dst)) else m x

/-- `rt_memset` with 0. -/
def rtMemset (m : Mem) (dst n : ℕ) : Mem := fun x => if dst ≤ x ∧ x < dst + n then 0 else m x

/-- `rt_realloc` of a block that is not split in place (`mem.c:501-510`). -/
def reallocMove (h : Heap) (rmem size newsize : ℕ) : Option (Heap × ℕ) :=
  (rtMalloc k h newsize).bind fun (h, nmem) =>
    if nmem = 0 then some (h, 0)
    else
      let n := if size < newsize then size else newsize
      (rtFree k { h with mem := rtMemcpy h.mem (nmem - h.heapPtr) (rmem - h.heapPtr) n } rmem).map
        fun h => (h, nmem)

/-- `rt_realloc` (`mem.c:421-510`). -/
def rtRealloc (h : Heap) (rmem newsize : ℕ) : Option (Heap × ℕ) :=
  let newsize := alignUp k newsize
  if h.memSizeAligned < newsize then some (h, 0)
  else if newsize = 0 then (rtFree k h rmem).map fun h => (h, 0)
  else if rmem = 0 then rtMalloc k h newsize
  else if rmem < h.heapPtr ∨ h.heapPtr + h.heapEnd k ≤ rmem then some (h, rmem)
  else
    let p := sub 32 (sub 32 rmem (sizeofStructMem k)) h.heapPtr
    let size := sub 32 (sub 32 (nextOf h.mem p) p) (sizeofStructMem k)
    if size = newsize then some (h, rmem)
    else if add 32 (add 32 newsize (sizeofStructMem k)) minSize < size then
      let h := { h with usedMem := sub 32 h.usedMem (sub 32 size newsize) }
      let q := add 32 (add 32 p (sizeofStructMem k)) newsize
      (plugHoles k (splitBlock k h p q) q).map fun h => (h, rmem)
    else reallocMove k h rmem size newsize

/-- `rt_calloc` (`mem.c:525-537`). -/
def rtCalloc (h : Heap) (count size : ℕ) : Option (Heap × ℕ) :=
  let n := count * size % 2 ^ 32
  (rtMalloc k h n).map fun (h, p) =>
    if p = 0 then (h, 0) else ({ h with mem := rtMemset h.mem (p - h.heapPtr) n }, p)

/-! ### Calls -/

/-- The heap, and the blocks handed out and not freed, each with the size last asked for. -/
structure Sys where
  heap : Heap
  live : ℕ → Option ℕ

inductive Act where
  | malloc (size : ℕ)
  | calloc (count size : ℕ)
  | realloc (rmem newsize : ℕ)
  | free (rmem : ℕ)
  | write (rmem i : ℕ) (b : BitVec 8)

/-- What the callers keep to: pointers are live or `RT_NULL`, writes are within the block, and
sizes do not wrap when they are aligned or multiplied. -/
def Act.Allowed (s : Sys) : Act → Prop
  | .malloc size => size + (2 ^ k - 1) < 2 ^ 32
  | .calloc count size => count * size + (2 ^ k - 1) < 2 ^ 32
  | .realloc rmem newsize =>
    (rmem = 0 ∨ (s.live rmem).isSome) ∧ newsize + (2 ^ k - 1) < 2 ^ 32
  | .free rmem => rmem = 0 ∨ (s.live rmem).isSome
  | .write rmem i _ => i < (s.live rmem).getD 0

instance (s : Sys) (a : Act) : Decidable (a.Allowed k s) := by
  cases a <;> unfold Act.Allowed <;> infer_instance

/-- The pointer `r` is handed out for a block of `size` bytes, unless it is `RT_NULL`. -/
def Sys.hand (live : ℕ → Option ℕ) (r : Heap × ℕ) (size : ℕ) : Sys :=
  ⟨r.1, if r.2 = 0 then live else Function.update live r.2 (some size)⟩

def call (s : Sys) : Act → Option Sys
  | .malloc size => (rtMalloc k s.heap size).map fun r => .hand s.live r size
  | .calloc count size => (rtCalloc k s.heap count size).map fun r => .hand s.live r (count * size)
  | .realloc rmem newsize =>
    (rtRealloc k s.heap rmem newsize).map fun r =>
      if r.2 = 0 ∧ newsize ≠ 0 then ⟨r.1, s.live⟩
      else .hand (Function.update s.live rmem none) r newsize
  | .free rmem => (rtFree k s.heap rmem).map fun h => ⟨h, Function.update s.live rmem none⟩
  | .write rmem i b =>
    some { s with heap := { s.heap with
      mem := Function.update s.heap.mem (rmem - s.heap.heapPtr + i) b } }

/-- A call that its caller may make. -/
def step (s : Sys) (a : Act) : Option Sys := if a.Allowed k s then call k s a else none

end RtThread.Memory.SmallMem
