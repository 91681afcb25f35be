import Mathlib
import RtThread.Finsh.Node
import RtThread.Lib.Bytes
import RtThread.Lib.Word

/-!
# FinSH: the heap for strings (`finsh_heap.c`)

The memory is one of bytes, and a pointer is an address, with 0 for NULL. Sums and differences are 32-bit words. A
function without a result stands for a loop that has not ended within its fuel.
-/

namespace RtThread.Finsh.Heap

open RtThread.Lib.Bytes RtThread.Lib.Word

def finshHeapMax : ℕ := 128

/-- `sizeof(struct finsh_block_header)`. -/
def headerSize : ℕ := 8

/-- The type and the `value.ptr` of a variable. -/
structure GlobalVariable where
  type : FinshType
  ptr : ℕ

structure FinshHeap where
  mem : Mem
  freeList : ℕ
  allocateList : ℕ
  globalVariable : Fin finshVariableMax → GlobalVariable

/-! ### Headers -/

def length (m : Mem) (header : ℕ) : ℕ := Lib.Bytes.load 4 m header

def next (m : Mem) (header : ℕ) : ℕ := Lib.Bytes.load 4 m (header + 4)

def setLength (m : Mem) (header v : ℕ) : Mem := Lib.Bytes.store 4 m header v

def setNext (m : Mem) (header v : ℕ) : Mem := Lib.Bytes.store 4 m (header + 4) v

def getHeader (data : ℕ) : ℕ := sub 32 data headerSize

def getData (header : ℕ) : ℕ := add 32 header headerSize

/-- `HEAP_ALIGN_SIZE`. -/
def heapAlignSize (size : ℕ) : ℕ := alignUp 2 size

/-- The address behind a block. -/
def behind (m : Mem) (header : ℕ) : ℕ := add 32 (add 32 header (length m header)) headerSize

/-- `memset(a, 0, n)`. -/
def memset (m : Mem) (a n : ℕ) : Mem := fun x => if a ≤ x ∧ x < a + n ∨ x + 2 ^ 32 < a + n then 0 else m x

/-- No list has more blocks than this. -/
def fuel : ℕ := finshHeapMax

/-- `for (node = list; node != NULL; node = node->next) if (p(node)) break;` with the node behind the loop. -/
def findBlock (m : Mem) (p : ℕ → Bool) : ℕ → ℕ → Option ℕ
  | 0, _ => none
  | fuel + 1, node => if node = 0 then some 0 else if p node then some node else findBlock m p fuel (next m node)

/-! ### Lists -/

/-- `finsh_block_insert`, with the list. -/
def finshBlockInsert (m : Mem) (list header : ℕ) : Option (Mem × ℕ) :=
  if list = 0 then some (m, header)
  else if header < list then some (setNext m header list, header)
  else do
    let node ← findBlock m (fun node => header < next m node ∨ next m node = 0) fuel list
    let m := if next m node ≠ 0 then setNext m header (next m node) else m
    some (setNext m node header, list)

/-- `finsh_block_remove`, with the list. -/
def finshBlockRemove (m : Mem) (list header : ℕ) : Option (Mem × ℕ) :=
  if list = header then some (setNext m header 0, next m header)
  else do
    let node ← findBlock m (fun node => next m node = header) fuel list
    some (if node ≠ 0 then setNext m node (next m header) else m, list)

/-- `finsh_block_split`. -/
def finshBlockSplit (m : Mem) (header size : ℕ) : Mem :=
  let rest := add 32 (add 32 header headerSize) size
  let m := setLength m rest (sub 32 (sub 32 (length m header) headerSize) size)
  let m := setLength m header size
  let m := setNext m rest (next m header)
  setNext m header rest

/-- `finsh_block_merge` behind its loop. -/
def mergeNodes (m : Mem) (prevNode header nextNode : ℕ) : Mem :=
  if prevNode ≠ 0 ∧ behind m prevNode = header then
    if nextNode ≠ 0 ∧ behind m header = nextNode then
      let m := setLength m prevNode
        (add 32 (length m prevNode) (add 32 (add 32 (length m header) (length m nextNode)) (2 * headerSize)))
      setNext m prevNode (next m nextNode)
    else
      let m := setLength m prevNode (add 32 (length m prevNode) (add 32 (length m header) headerSize))
      setNext m prevNode (next m header)
  else if nextNode ≠ 0 ∧ behind m header = nextNode then
    let m := setLength m header (add 32 (length m header) (add 32 (length m nextNode) headerSize))
    setNext m header (next m nextNode)
  else m

/-- `finsh_block_merge`. -/
def finshBlockMerge (m : Mem) (list header : ℕ) : Option Mem := do
  let prevNode ← if list = header then some 0 else findBlock m (fun node => next m node = header) fuel list
  some (mergeNodes m prevNode header (next m header))

/-! ### The heap -/

/-- `finsh_heap_init`, with the memory and the variables as they are. -/
def finshHeapInit (heap : ℕ) (m : Mem) (globalVariable : Fin finshVariableMax → GlobalVariable) : FinshHeap :=
  let m := memset m heap finshHeapMax
  let m := setLength m heap (finshHeapMax - headerSize)
  let m := setNext m heap 0
  ⟨m, heap, 0, globalVariable⟩

/-- `finsh_heap_free`. -/
def finshHeapFree (s : FinshHeap) (ptr : ℕ) : Option FinshHeap := do
  let header := getHeader ptr
  let (m, allocateList) ← finshBlockRemove s.mem s.allocateList header
  let (m, freeList) ← finshBlockInsert m s.freeList header
  let m ← finshBlockMerge m freeList header
  some { s with mem := m, freeList := freeList, allocateList := allocateList }

/-- A variable holds the address. -/
def FinshHeap.isHeld (s : FinshHeap) (data : ℕ) : Bool :=
  ∃ i, (s.globalVariable i).type ≠ .unknown ∧ (s.globalVariable i).ptr = data

/-- The loop of `finsh_heap_gc`. -/
def gcLoop : ℕ → ℕ → FinshHeap → Option FinshHeap
  | 0, _, _ => none
  | fuel + 1, header, s =>
    if header = 0 then some s
    else do
      let rest := next s.mem header
      let s ← if s.isHeld (getData header) then some s else finshHeapFree s (getData header)
      gcLoop fuel rest s

/-- `finsh_heap_gc`. -/
def finshHeapGc (s : FinshHeap) : Option FinshHeap := gcLoop fuel s.allocateList s

/-- What `finsh_heap_allocate` does with the block that it has found. -/
def takeBlock (s : FinshHeap) (header size : ℕ) : Option (ℕ × FinshHeap) := do
  let m := finshBlockSplit s.mem header size
  let (m, freeList) ← finshBlockRemove m s.freeList header
  let m := setNext m header 0
  let (m, allocateList) ← finshBlockInsert m s.allocateList header
  let m := memset m (getData header) size
  some (getData header, { s with mem := m, freeList := freeList, allocateList := allocateList })

/-- `finsh_heap_allocate`. -/
def finshHeapAllocate (s : FinshHeap) (size : ℕ) : Option (ℕ × FinshHeap) := do
  let size := heapAlignSize size
  let header ← findBlock s.mem (fun header => ¬length s.mem header ≤ add 32 size headerSize) fuel s.freeList
  if header ≠ 0 then takeBlock s header size
  else do
    let s ← finshHeapGc s
    let header ← findBlock s.mem (fun header => ¬length s.mem header < add 32 size headerSize) fuel s.freeList
    if header = 0 then some (0, s) else takeBlock s header size

end RtThread.Finsh.Heap
