import RtThread.Memory.MemHeapCalls
import RtThread.Memory.SmallMem

/-!
# The bytes of a memory heap

Each assignment to a field of an item is also a store of four bytes, and `rt_memheap_realloc` copies data. The heap that
the assignments lead to is the one of the functions on the fields.
-/

namespace RtThread.Memory.MemHeap

open RtThread.Lib.Bytes RtThread.Lib.Word

/-- The fields of `struct rt_memheap_item`. -/
inductive Field where
  | magic
  | poolPtr
  | next
  | prev
  | nextFree
  | prevFree

def Field.offset : Field → ℕ
  | .magic => 0
  | .poolPtr => 4
  | .next => 8
  | .prev => 12
  | .nextFree => 16
  | .prevFree => 20

/-- An assignment to a field of the item at `item`. -/
structure Assign where
  item : ℕ
  field : Field
  value : ℕ

def Memheap.assign (h : Memheap) (a : Assign) : Memheap :=
  match a.field with
  | .magic => { h with magic := Function.update h.magic a.item a.value }
  | .poolPtr => { h with poolPtr := Function.update h.poolPtr a.item a.value }
  | .next => { h with next := Function.update h.next a.item a.value }
  | .prev => { h with prev := Function.update h.prev a.item a.value }
  | .nextFree => { h with nextFree := Function.update h.nextFree a.item a.value }
  | .prevFree => { h with prevFree := Function.update h.prevFree a.item a.value }

def Assign.store (m : Mem) (a : Assign) : Mem := Lib.Bytes.store 4 m (a.item + a.field.offset) a.value

/-! ### The assignments -/

def useItemAssigns (h : Memheap) (p : ℕ) : List Assign := [⟨p, .magic, h.magic p ||| memheapUsed⟩]

def unuseItemAssigns (h : Memheap) (p : ℕ) : List Assign := [⟨p, .magic, h.magic p &&& memheapMask⟩]

/-- As `memheap.c:216-219`. -/
def insertFreeAssigns (h : Memheap) (p : ℕ) : List Assign :=
  [⟨p, .nextFree, h.nextFree h.freeList⟩, ⟨p, .prevFree, h.freeList⟩, ⟨h.nextFree h.freeList, .prevFree, p⟩,
    ⟨h.freeList, .nextFree, p⟩]

/-- As `memheap.c:210-211`. -/
def removeFreeAssigns (h : Memheap) (p : ℕ) : List Assign :=
  [⟨h.nextFree p, .prevFree, h.prevFree p⟩, ⟨h.prevFree p, .nextFree, h.nextFree p⟩]

def clearFreeAssigns (p : ℕ) : List Assign := [⟨p, .nextFree, 0⟩, ⟨p, .prevFree, 0⟩]

/-- As `memheap.c:197-207`. -/
def newItemAssigns (h : Memheap) (p q : ℕ) : List Assign :=
  [⟨q, .magic, memheapMagic⟩, ⟨q, .poolPtr, h.self⟩, ⟨q, .prev, p⟩, ⟨q, .next, h.next p⟩, ⟨h.next p, .prev, q⟩,
    ⟨p, .next, q⟩]

/-- As `memheap.c:569-570`. -/
def mergeItemAssigns (h : Memheap) (p q : ℕ) : List Assign := [⟨h.next q, .prev, p⟩, ⟨p, .next, h.next q⟩]

theorem update_same {α : Type*} (f : ℕ → α) (p q : ℕ) : Function.update f q (f p) p = f p := by
  by_cases hpq : p = q
  · rw [hpq, Function.update_self]
  · exact Function.update_of_ne hpq _ _

theorem useItem_eq (h : Memheap) (p : ℕ) : useItem h p = (useItemAssigns h p).foldl Memheap.assign h := rfl

theorem unuseItem_eq (h : Memheap) (p : ℕ) : unuseItem h p = (unuseItemAssigns h p).foldl Memheap.assign h := rfl

theorem insertFree_eq (h : Memheap) (p : ℕ) : insertFree h p = (insertFreeAssigns h p).foldl Memheap.assign h := by
  cases h
  simp only [insertFree, update_same]
  rfl

theorem removeFree_eq (h : Memheap) (p : ℕ) : removeFree h p = (removeFreeAssigns h p).foldl Memheap.assign h := by
  cases h
  simp only [removeFree, update_same]
  rfl

theorem clearFree_eq (h : Memheap) (p : ℕ) : clearFree h p = (clearFreeAssigns p).foldl Memheap.assign h := rfl

theorem newItem_assigns (h : Memheap) (p q : ℕ) : newItem h p q = (newItemAssigns h p q).foldl Memheap.assign h := by
  cases h
  simp only [newItem, update_same]
  rfl

theorem mergeItem_eq (h : Memheap) (p q : ℕ) : mergeItem h p q = (mergeItemAssigns h p q).foldl Memheap.assign h := rfl

/-- The heap object and the memory. -/
structure Pool where
  heap : Memheap
  mem : Mem

namespace Pool

variable (k : ℕ)

def record (s : Pool) : Pool := { s with heap := s.heap.record }

def withAvailable (s : Pool) (x : ℕ) : Pool := { s with heap := s.heap.withAvailable x }

def charge (s : Pool) (x : ℕ) : Pool := { s with heap := s.heap.charge x }

def useItem (s : Pool) (p : ℕ) : Pool := ⟨MemHeap.useItem s.heap p, (useItemAssigns s.heap p).foldl Assign.store s.mem⟩

def unuseItem (s : Pool) (p : ℕ) : Pool :=
  ⟨MemHeap.unuseItem s.heap p, (unuseItemAssigns s.heap p).foldl Assign.store s.mem⟩

def insertFree (s : Pool) (p : ℕ) : Pool :=
  ⟨MemHeap.insertFree s.heap p, (insertFreeAssigns s.heap p).foldl Assign.store s.mem⟩

def removeFree (s : Pool) (p : ℕ) : Pool :=
  ⟨MemHeap.removeFree s.heap p, (removeFreeAssigns s.heap p).foldl Assign.store s.mem⟩

def clearFree (s : Pool) (p : ℕ) : Pool := ⟨MemHeap.clearFree s.heap p, (clearFreeAssigns p).foldl Assign.store s.mem⟩

def newItem (s : Pool) (p q : ℕ) : Pool :=
  ⟨MemHeap.newItem s.heap p q, (newItemAssigns s.heap p q).foldl Assign.store s.mem⟩

def mergeItem (s : Pool) (p q : ℕ) : Pool :=
  ⟨MemHeap.mergeItem s.heap p q, (mergeItemAssigns s.heap p q).foldl Assign.store s.mem⟩

/-- As `memheap.c:182-253`. -/
def takeItem (s : Pool) (p freeSize size : ℕ) : Pool :=
  let s :=
    if add 32 (add 32 size (memheapSize k)) memheapMinialloc ≤ freeSize then
      let q := add 32 (add 32 p size) (memheapSize k)
      let s := (((s.newItem p q).removeFree p).clearFree p).insertFree q
      s.charge (sub 32 (sub 32 s.heap.availableSize size) (memheapSize k))
    else
      let s := s.charge (sub 32 s.heap.availableSize freeSize)
      (s.removeFree p).clearFree p
  s.useItem p

/-- `rt_memheap_alloc` (`memheap.c:138-281`). -/
def rtMemheapAlloc (s : Pool) (size : ℕ) : Option (ℕ × Pool) :=
  let size := requestSize k size
  if size < s.heap.availableSize then
    (searchLoop k s.heap size s.heap.fuel (s.heap.nextFree s.heap.freeList) 0).map fun x =>
      if size ≤ x.2 then (add 32 x.1 (memheapSize k), (s.takeItem k x.1 x.2 size).record)
      else (0, s.record)
  else some (0, s.record)

/-- As `memheap.c:535-553`. -/
def mergePrev (s : Pool) (p : ℕ) : ℕ × Bool × Pool :=
  if ¬s.heap.isUsed (s.heap.prev p) then
    (s.heap.prev p, false, (s.withAvailable (add 32 s.heap.availableSize (memheapSize k))).mergeItem (s.heap.prev p) p)
  else (p, true, s)

/-- As `memheap.c:556-575`. -/
def mergeNext (s : Pool) (p : ℕ) : Pool :=
  let n := s.heap.next p
  if ¬s.heap.isUsed n then
    ((s.withAvailable (add 32 s.heap.availableSize (memheapSize k))).mergeItem p n).removeFree n
  else s

/-- As `memheap.c:529-533`. -/
def dropItem (s : Pool) (p : ℕ) : Pool :=
  let s := s.unuseItem p
  s.withAvailable (add 32 s.heap.availableSize (memitemSize k s.heap p))

/-- As `memheap.c:556-592`. -/
def settle (x : ℕ × Bool × Pool) : Pool :=
  let s := x.2.2.mergeNext k x.1
  (if x.2.1 = true then s.insertFree x.1 else s).record

/-- `rt_memheap_free` (`memheap.c:495-595`). -/
def rtMemheapFree (s : Pool) (ptr : ℕ) : Option Pool :=
  if ptr = 0 then some s.record
  else
    let p := sub 32 ptr (memheapSize k)
    if s.heap.magic p &&& memheapMask = memheapMagic ∧ s.heap.isUsed p ∧
        s.heap.magic (s.heap.next p) &&& memheapMask = memheapMagic ∧ s.heap.poolPtr p = s.heap.self then
      some (settle k ((s.dropItem k p).mergePrev k p))
    else none

/-- As `memheap.c:349-404`. -/
def growItem (s : Pool) (p oldsize newsize : ℕ) : Pool :=
  let s := s.charge (sub 32 s.heap.availableSize (sub 32 newsize oldsize))
  let n := s.heap.next p
  let s := (s.removeFree n).mergeItem (s.heap.prev n) n
  let q := add 32 (add 32 p (memheapSize k)) newsize
  (s.newItem p q).insertFree q

/-- As `memheap.c:456-474`. -/
def absorbNext (s : Pool) (q : ℕ) : Pool :=
  let n := s.heap.next q
  if ¬s.heap.isUsed n then
    ((s.withAvailable (sub 32 s.heap.availableSize (memitemSize k s.heap n))).mergeItem q n).removeFree n
  else s

/-- As `memheap.c:431-489`. -/
def shrinkItem (s : Pool) (p newsize : ℕ) : Pool :=
  let q := add 32 (add 32 p newsize) (memheapSize k)
  let s := ((s.newItem p q).absorbNext k q).insertFree q
  s.withAvailable (add 32 s.heap.availableSize (memitemSize k s.heap q))

def rtMemcpy (s : Pool) (dst src n : ℕ) : Pool := { s with mem := SmallMem.rtMemcpy s.mem dst src n }

/-- `rt_memheap_realloc` (`memheap.c:284-492`). -/
def rtMemheapRealloc (s : Pool) (ptr newsize : ℕ) : Option (ℕ × Pool) :=
  if newsize = 0 then (s.rtMemheapFree k ptr).map fun s => (0, s)
  else
    let newsize := requestSize k newsize
    if ptr = 0 then s.rtMemheapAlloc k newsize
    else
      let p := sub 32 ptr (memheapSize k)
      let oldsize := memitemSize k s.heap p
      if oldsize < newsize then
        let n := s.heap.next p
        if p < n then
          if ¬s.heap.isUsed n ∧ add 32 newsize memheapMinialloc < add 32 (memitemSize k s.heap n) oldsize then
            some (ptr, (s.growItem k p oldsize newsize).record)
          else
            (s.rtMemheapAlloc k newsize).bind fun x =>
              if x.1 ≠ 0 then
                ((x.2.rtMemcpy x.1 ptr (if oldsize < newsize then oldsize else newsize)).rtMemheapFree k ptr).map
                  fun s => (x.1, s)
              else some x
        else none
      else if oldsize ≤ add 32 (add 32 newsize (memheapSize k)) memheapMinialloc then some (ptr, s.record)
      else some (ptr, (s.shrinkItem k p newsize).record)

/-! ### The heap -/

variable {k} (s : Pool)

@[simp] theorem record_heap : s.record.heap = s.heap.record := rfl

@[simp] theorem withAvailable_heap (x : ℕ) : (s.withAvailable x).heap = s.heap.withAvailable x := rfl

@[simp] theorem charge_heap (x : ℕ) : (s.charge x).heap = s.heap.charge x := rfl

@[simp] theorem useItem_heap (p : ℕ) : (s.useItem p).heap = MemHeap.useItem s.heap p := rfl

@[simp] theorem unuseItem_heap (p : ℕ) : (s.unuseItem p).heap = MemHeap.unuseItem s.heap p := rfl

@[simp] theorem insertFree_heap (p : ℕ) : (s.insertFree p).heap = MemHeap.insertFree s.heap p := rfl

@[simp] theorem removeFree_heap (p : ℕ) : (s.removeFree p).heap = MemHeap.removeFree s.heap p := rfl

@[simp] theorem clearFree_heap (p : ℕ) : (s.clearFree p).heap = MemHeap.clearFree s.heap p := rfl

@[simp] theorem newItem_heap (p q : ℕ) : (s.newItem p q).heap = MemHeap.newItem s.heap p q := rfl

@[simp] theorem mergeItem_heap (p q : ℕ) : (s.mergeItem p q).heap = MemHeap.mergeItem s.heap p q := rfl

@[simp] theorem rtMemcpy_heap (dst src n : ℕ) : (s.rtMemcpy dst src n).heap = s.heap := rfl

@[simp] theorem takeItem_heap (p freeSize size : ℕ) :
    (s.takeItem k p freeSize size).heap = MemHeap.takeItem k s.heap p freeSize size := by
  unfold takeItem MemHeap.takeItem
  simp only [useItem_heap]
  split <;> rfl

theorem rtMemheapAlloc_heap (size : ℕ) :
    (s.rtMemheapAlloc k size).map (fun x => (x.1, x.2.heap)) = MemHeap.rtMemheapAlloc k s.heap size := by
  unfold rtMemheapAlloc MemHeap.rtMemheapAlloc
  simp only
  split
  · rw [Option.map_map]
    refine congrArg (fun f => Option.map f _) (funext fun x => ?_)
    simp only [Function.comp_apply]
    split
    · simp only [record_heap, takeItem_heap]
    · rfl
  · rfl

@[simp] theorem mergeNext_heap (p : ℕ) : (s.mergeNext k p).heap = MemHeap.mergeNext k s.heap p := by
  unfold mergeNext MemHeap.mergeNext
  simp only
  split <;> rfl

theorem mergePrev_heap (p : ℕ) : MemHeap.mergePrev k s.heap p =
    ((s.mergePrev k p).1, (s.mergePrev k p).2.1, (s.mergePrev k p).2.2.heap) := by
  unfold mergePrev MemHeap.mergePrev
  split <;> rfl

theorem settle_heap (x : ℕ × Bool × Pool) : (settle k x).heap =
    (if x.2.1 = true then MemHeap.insertFree (MemHeap.mergeNext k x.2.2.heap x.1) x.1
      else MemHeap.mergeNext k x.2.2.heap x.1).record := by
  obtain ⟨q, insertHeader, s⟩ := x
  cases insertHeader with
  | true => simp [settle]
  | false => simp [settle]

theorem rtMemheapFree_heap (ptr : ℕ) : (s.rtMemheapFree k ptr).map heap = MemHeap.rtMemheapFree k s.heap ptr := by
  unfold rtMemheapFree MemHeap.rtMemheapFree
  simp only
  split
  · rfl
  · split
    · rw [Option.map_some, settle_heap, ← unuseItem_heap, ← withAvailable_heap, mergePrev_heap]
      rfl
    · rfl

@[simp] theorem growItem_heap (p oldsize newsize : ℕ) :
    (s.growItem k p oldsize newsize).heap = MemHeap.growItem k s.heap p oldsize newsize := rfl

@[simp] theorem absorbNext_heap (q : ℕ) : (s.absorbNext k q).heap = MemHeap.absorbNext k s.heap q := by
  unfold absorbNext MemHeap.absorbNext
  simp only
  split <;> rfl

@[simp] theorem shrinkItem_heap (p newsize : ℕ) :
    (s.shrinkItem k p newsize).heap = MemHeap.shrinkItem k s.heap p newsize := by
  unfold shrinkItem MemHeap.shrinkItem
  simp only [withAvailable_heap, insertFree_heap, absorbNext_heap, newItem_heap]

theorem rtMemheapRealloc_heap (ptr newsize : ℕ) :
    (s.rtMemheapRealloc k ptr newsize).map (fun x => (x.1, x.2.heap)) = MemHeap.rtMemheapRealloc k s.heap ptr newsize := by
  unfold rtMemheapRealloc MemHeap.rtMemheapRealloc
  split
  · rw [← rtMemheapFree_heap, Option.map_map, Option.map_map]
    rfl
  · simp only
    split
    · exact s.rtMemheapAlloc_heap _
    · split
      · split
        · split
          · simp only [Option.map_some, record_heap, growItem_heap]
          · -- the block moves
            rw [← rtMemheapAlloc_heap]
            cases hx : s.rtMemheapAlloc k (requestSize k newsize) with
            | none => rfl
            | some x =>
              simp only [Option.bind_some, Option.map_some]
              split
              · rw [← rtMemcpy_heap x.2 x.1 ptr, ← rtMemheapFree_heap, Option.map_map, Option.map_map]
                rfl
              · rfl
        · rfl
      · split
        · rfl
        · simp only [Option.map_some, record_heap, shrinkItem_heap]

end Pool

end RtThread.Memory.MemHeap
