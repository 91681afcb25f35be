import RtThread.Memory.SlabRuns
import RtThread.Memory.SmallMem

/-!
# The bytes of the slab heap

Each assignment of the allocator to a page head, to the header of a zone, to the link of a free chunk or to a page
descriptor is also a store of its words. The heap that the assignments lead to is the one of the functions on the
fields, and what a caller or `rt_memcpy` writes is seen as the link of a chunk as well.
-/

namespace RtThread.Memory.Slab

open RtThread.Lib.Bytes RtThread.Lib.Word RtThread.Memory.Pages

/-- An assignment, to a structure in memory as a whole or to a static variable. -/
inductive Assign where
  | pageList (x : Option ℕ)
  | page (p : ℕ) (head : PageHead)
  | zoneArray (zi : ℕ) (x : Option ℕ)
  | zoneFree (x : Option ℕ)
  | zoneFreeCnt (x : ℤ)
  | zone (z : ℕ) (header : SlabZone)
  | cNext (c : ℕ) (x : Option ℕ)
  | memusage (p : ℕ) (x : MemUsage)

def Heap.assign (h : Heap) : Assign → Heap
  | .pageList x => { h with pages := { h.pages with pageList := x } }
  | .page p head => { h with pages := h.pages.set p head }
  | .zoneArray zi x => h.setArray zi x
  | .zoneFree x => { h with zoneFree := x }
  | .zoneFreeCnt x => { h with zoneFreeCnt := x }
  | .zone z header => h.setZone z header
  | .cNext c x => { h with cNext := Function.update h.cNext c x }
  | .memusage p x => { h with memusage := Function.update h.memusage p x }

/-- `PAGE_TYPE_FREE`, `PAGE_TYPE_SMALL` and `PAGE_TYPE_LARGE`. -/
def PageType.code : PageType → ℕ
  | .free => 0
  | .small => 1
  | .large => 2

def pagePtr (x : Option ℕ) : ℕ := (x.map fun p => p * pageSize).getD 0

/-- The words that are stored; the type of a page is in the low two bits of its descriptor. -/
def Assign.words : Assign → List ℕ
  | .page _ head => [pagePtr head.next, head.page]
  | .zone _ header =>
    [(header.zMagic % 2 ^ 32).toNat, header.zNfree, header.zNmax, pagePtr header.zNext, header.zBaseptr,
      header.zUindex, header.zChunksize, header.zZoneindex, header.zFreechunk.getD 0]
  | .cNext _ x => [x.getD 0]
  | .memusage _ x => [x.type.code + 4 * x.size]
  | _ => []

/-- Where they are stored; `table` is the first page of the array `memusage`. -/
def Assign.addr (table heapStart : ℕ) : Assign → ℕ
  | .page p _ => p * pageSize
  | .zone z _ => z * pageSize
  | .cNext c _ => c
  | .memusage p _ => table * pageSize + 4 * (p - heapStart)
  | _ => 0

/-- The heap, the first page of `memusage`, and the memory. -/
structure Pool where
  heap : Heap
  table : ℕ
  mem : Mem

namespace Pool

def assign (s : Pool) (a : Assign) : Pool :=
  { s with
    heap := s.heap.assign a
    mem := storeWords s.mem (a.addr s.table s.heap.pages.heapStart) a.words }

/-- The memory is `m` then, which differs at most from `lo` on and before `hi`. Heads and headers in a block are stored
anew before they are read. -/
def setBytes (s : Pool) (lo hi : ℕ) (m : Mem) : Pool :=
  { s with
    heap := { s.heap with
      cNext := fun c =>
        if c < hi ∧ lo < c + 4 then if load 4 m c = 0 then none else some (load 4 m c) else s.heap.cNext c }
    mem := m }

def rtMemcpy (s : Pool) (dst src n : ℕ) : Pool := s.setBytes dst (dst + n) (SmallMem.rtMemcpy s.mem dst src n)

/-! ### The page allocator -/

/-- `*prev = x`. -/
def setPrev (s : Pool) (prev x : Option ℕ) : Pool :=
  match prev with
  | none => s.assign (.pageList x)
  | some b => s.assign (.page b { s.heap.pages.mem b with next := x })

/-- The loop of `rt_page_alloc` (`slab.c:247-265`). -/
def allocLoop (s : Pool) (npages : ℕ) : ℕ → Option ℕ → Option (Option ℕ × Pool)
  | 0, _ => none
  | fuel + 1, prev =>
    match s.heap.pages.link prev with
    | none => some (none, s)
    | some b =>
      let head := s.heap.pages.mem b
      if npages < head.page then
        let n := b + npages
        some (some b, (s.assign (.page n ⟨head.next, head.page - npages⟩)).setPrev prev (some n))
      else if head.page = npages then some (some b, s.setPrev prev head.next)
      else allocLoop s npages fuel (some b)

/-- `rt_page_alloc` (`slab.c:236-271`). -/
def rtPageAlloc (s : Pool) (npages : ℕ) : Option (Option ℕ × Pool) :=
  if npages = 0 then some (none, s) else s.allocLoop npages s.heap.pages.fuel none

/-- As `slab.c:293-301`. -/
def joinBehind (s : Pool) (b npages : ℕ) : Pool :=
  let head := s.heap.pages.mem b
  let s := s.assign (.page b { head with page := head.page + npages })
  match head.next with
  | none => s
  | some c =>
    let next := s.heap.pages.mem c
    if b + (head.page + npages) = c then s.assign (.page b ⟨next.next, head.page + npages + next.page⟩) else s

/-- The loop of `rt_page_free` (`slab.c:288-321`) with its two ways out. -/
def freeLoop (s : Pool) (n npages : ℕ) : ℕ → Option ℕ → Option Pool
  | 0, _ => none
  | fuel + 1, prev =>
    match s.heap.pages.link prev with
    | none => some ((s.assign (.page n ⟨none, npages⟩)).setPrev prev (some n))
    | some b =>
      let head := s.heap.pages.mem b
      if 0 < head.page ∧ (n < b ∨ b + head.page ≤ n) then
        if b + head.page = n then some (s.joinBehind b npages)
        else if b = n + npages then
          some ((s.assign (.page n ⟨head.next, head.page + npages⟩)).setPrev prev (some n))
        else if n + npages < b then some ((s.assign (.page n ⟨some b, npages⟩)).setPrev prev (some n))
        else freeLoop s n npages fuel (some b)
      else none

/-- `rt_page_free` (`slab.c:273-325`). -/
def rtPageFree (s : Pool) (n npages : ℕ) : Option Pool :=
  if npages ≠ 0 then s.freeLoop n npages s.heap.pages.fuel none else none

/-! ### `rt_malloc` -/

/-- As `slab.c:615-622` and `slab.c:885-891`. -/
def markLoop (value : ℕ → MemUsage) (z : ℕ) : ℕ → Pool → Pool
  | 0, s => s
  | off + 1, s => (markLoop value z off s).assign (.memusage (z + off) (value off))

/-- As `slab.c:625-652`. -/
def initZone (s : Pool) (zi size z : ℕ) : ℕ × Pool :=
  let off := chunkOffset size
  let nmax := (s.heap.zoneSize - off) / size
  let zone : SlabZone :=
    { zMagic := zallocSlabMagic
      zZoneindex := zi
      zNmax := nmax
      zNfree := nmax - 1
      zBaseptr := z * pageSize + off
      zUindex := 0
      zChunksize := size
      zNext := s.heap.zoneArray zi
      zFreechunk := none }
  (zone.zBaseptr + zone.zUindex * size, (s.assign (.zone z zone)).assign (.zoneArray zi (some z)))

/-- As `slab.c:590-652`. -/
def newZone (s : Pool) (zi size : ℕ) : Option (Option ℕ × Pool) :=
  match s.heap.zoneFree with
  | some z =>
    let s := (s.assign (.zoneFree (s.heap.zone z).zNext)).assign (.zoneFreeCnt (s.heap.zoneFreeCnt - 1))
    let x := s.initZone zi size z
    some (some x.1, x.2)
  | none =>
    (s.rtPageAlloc (s.heap.zoneSize / pageSize)).map fun p =>
      match p.1 with
      | none => (none, p.2)
      | some z =>
        let x := (markLoop (fun off => ⟨.small, off⟩) z s.heap.zonePageCnt p.2).initZone zi size z
        (some x.1, x.2)

/-- As `slab.c:543-548`. -/
def lessFree (s : Pool) (zi z : ℕ) : Pool :=
  let zone := { s.heap.zone z with zNfree := (s.heap.zone z).zNfree - 1 }
  if zone.zNfree = 0 then (s.assign (.zoneArray zi zone.zNext)).assign (.zone z { zone with zNext := none })
  else s.assign (.zone z zone)

/-- As `slab.c:556-568`. -/
def takeChunk (s : Pool) (size z : ℕ) : Option (ℕ × Pool) :=
  let zone := s.heap.zone z
  if zone.zUindex + 1 ≠ zone.zNmax then
    let zone := { zone with zUindex := zone.zUindex + 1 }
    some (zone.zBaseptr + zone.zUindex * size, s.assign (.zone z zone))
  else
    zone.zFreechunk.map fun chunk =>
      (chunk, s.assign (.zone z { zone with zFreechunk := s.heap.cNext chunk }))

/-- As `slab.c:493-520`. -/
def mallocLarge (s : Pool) (size : ℕ) : Option (Option ℕ × Pool) :=
  let npages := alignUp 12 size / pageSize
  (s.rtPageAlloc npages).map fun p =>
    match p.1 with
    | none => (none, p.2)
    | some chunk => (some (chunk * pageSize), p.2.assign (.memusage chunk ⟨.large, npages⟩))

/-- `rt_malloc` (`slab.c:478-667`). -/
def rtMalloc (s : Pool) (size : ℕ) : Option (Option ℕ × Pool) :=
  if size = 0 then some (none, s)
  else if s.heap.zoneLimit ≤ size then s.mallocLarge size
  else
    let x := zoneindex size
    if x.1 < nzones then
      match s.heap.zoneArray x.1 with
      | some z =>
        if 0 < (s.heap.zone z).zNfree then ((s.lessFree x.1 z).takeChunk x.2 z).map fun y => (some y.1, y.2) else none
      | none => s.newZone x.1 x.2
    else none

/-! ### `rt_free` -/

/-- As `slab.c:830-846`. -/
def giveChunk (s : Pool) (z ptr : ℕ) : Pool :=
  let zone := s.heap.zone z
  let s := s.assign (.cNext ptr zone.zFreechunk)
  if zone.zNfree = 0 then
    let zone := { zone with
      zFreechunk := some ptr, zNfree := zone.zNfree + 1, zNext := s.heap.zoneArray zone.zZoneindex }
    (s.assign (.zone z zone)).assign (.zoneArray zone.zZoneindex (some z))
  else s.assign (.zone z { zone with zFreechunk := some ptr, zNfree := zone.zNfree + 1 })

/-- `*pz = x`. -/
def setLink (s : Pool) (zi : ℕ) (pz x : Option ℕ) : Pool :=
  match pz with
  | none => s.assign (.zoneArray zi x)
  | some b => s.assign (.zone b { s.heap.zone b with zNext := x })

/-- As `slab.c:863-865`. -/
def unlinkLoop (s : Pool) (zi z : ℕ) : ℕ → Option ℕ → Option Pool
  | 0, _ => none
  | fuel + 1, pz =>
    (s.heap.link zi pz).bind fun b =>
      if b = z then some (s.setLink zi pz (s.heap.zone z).zNext) else unlinkLoop s zi z fuel (some b)

/-- As `slab.c:868-874`. -/
def keepZone (s : Pool) (z : ℕ) : Pool :=
  let cnt := s.heap.zoneFreeCnt
  ((s.assign (.zone z { s.heap.zone z with zMagic := -1, zNext := s.heap.zoneFree })).assign
    (.zoneFree (some z))).assign (.zoneFreeCnt (cnt + 1))

/-- As `slab.c:877-900`. -/
def releaseZone (s : Pool) : Option Pool :=
  if (zoneReleaseThresh : ℤ) < s.heap.zoneFreeCnt then
    s.heap.zoneFree.bind fun z =>
      let n := s.heap.zoneSize / pageSize
      let cnt := s.heap.zoneFreeCnt
      let s := (s.assign (.zoneFree (s.heap.zone z).zNext)).assign (.zoneFreeCnt (cnt - 1))
      (markLoop (fun _ => ⟨.free, 0⟩) z s.heap.zonePageCnt s).rtPageFree z n
  else some s

/-- As `slab.c:830-903`. -/
def freeChunk (s : Pool) (z ptr : ℕ) : Option Pool :=
  let s := s.giveChunk z ptr
  let zone := s.heap.zone z
  if zone.zNfree = zone.zNmax ∧ (zone.zNext.isSome = true ∨ s.heap.zoneArray zone.zZoneindex ≠ some z) then
    (s.unlinkLoop zone.zZoneindex z s.heap.pages.fuel none).bind fun s => (s.keepZone z).releaseZone
  else some s

/-- `rt_free` (`slab.c:771-904`). -/
def rtFree (s : Pool) (ptr : Option ℕ) : Option Pool :=
  match ptr with
  | none => some s
  | some ptr =>
    let page := ptr / pageSize
    let kup := s.heap.memusage page
    if kup.type = .large then
      if ptr % pageSize = 0 then (s.assign (.memusage page ⟨.large, 0⟩)).rtPageFree page kup.size else none
    else
      let z := page - kup.size
      if (s.heap.zone z).zMagic = zallocSlabMagic then s.freeChunk z ptr else none

/-! ### The heap -/

@[simp] theorem assign_heap (s : Pool) (a : Assign) : (s.assign a).heap = s.heap.assign a := rfl

@[simp] theorem setPrev_heap (s : Pool) (prev x : Option ℕ) :
    (s.setPrev prev x).heap = { s.heap with pages := s.heap.pages.setLink prev x } := by
  cases prev <;> rfl

/-- The heap with other pages. -/
def withPages (s : Pool) (x : Option ℕ × PageHeap) : Option ℕ × Heap := (x.1, { s.heap with pages := x.2 })

theorem allocLoop_heap (s : Pool) (npages fuel : ℕ) (prev : Option ℕ) :
    (s.allocLoop npages fuel prev).map (fun x => (x.1, x.2.heap)) =
      (Pages.allocLoop s.heap.pages npages fuel prev).map s.withPages := by
  induction fuel generalizing prev with
  | zero => rfl
  | succ fuel ih =>
    rw [allocLoop, Pages.allocLoop]
    cases hlink : s.heap.pages.link prev with
    | none => rfl
    | some b =>
      simp only
      split
      · rw [Option.map_some, setPrev_heap]
        rfl
      · split
        · rw [Option.map_some, setPrev_heap]
          rfl
        · exact ih (some b)

theorem rtPageAlloc_heap (s : Pool) (npages : ℕ) :
    (s.rtPageAlloc npages).map (fun x => (x.1, x.2.heap)) =
      (Pages.rtPageAlloc s.heap.pages npages).map s.withPages := by
  rw [rtPageAlloc, Pages.rtPageAlloc]
  split
  · rfl
  · exact s.allocLoop_heap npages _ none

theorem rtPageAlloc_cases (s : Pool) (npages : ℕ) :
    (s.rtPageAlloc npages = none ∧ Pages.rtPageAlloc s.heap.pages npages = none) ∨
      ∃ r s' pages, s.rtPageAlloc npages = some (r, s') ∧ Pages.rtPageAlloc s.heap.pages npages = some (r, pages) ∧
        s'.heap = { s.heap with pages := pages } := by
  have hheap := s.rtPageAlloc_heap npages
  cases halloc : Pages.rtPageAlloc s.heap.pages npages with
  | none =>
    rw [halloc, Option.map_none, Option.map_eq_none_iff] at hheap
    exact Or.inl ⟨hheap, rfl⟩
  | some x =>
    rw [halloc, Option.map_some] at hheap
    obtain ⟨y, hy, hxy⟩ := Option.map_eq_some_iff.mp hheap
    obtain ⟨hr, hpages⟩ := Prod.mk.inj hxy
    exact Or.inr ⟨y.1, y.2, x.2, hy, by rw [hr], hpages⟩

theorem rtPageAlloc_eq_some {s s' : Pool} {npages : ℕ} {r : Option ℕ} (halloc : s.rtPageAlloc npages = some (r, s')) :
    ∃ pages, Pages.rtPageAlloc s.heap.pages npages = some (r, pages) ∧ s'.heap = { s.heap with pages := pages } := by
  rcases s.rtPageAlloc_cases npages with ⟨hnone, -⟩ | ⟨r, s₁, pages, hs, hpages, hheap⟩
  · rw [hnone] at halloc
    cases halloc
  · rw [hs] at halloc
    cases halloc
    exact ⟨pages, hpages, hheap⟩

theorem joinBehind_heap (s : Pool) (b npages : ℕ) :
    (s.joinBehind b npages).heap = { s.heap with pages := Pages.joinBehind s.heap.pages b npages } := by
  have hself : ∀ head, (s.heap.pages.set b head).mem b = head := fun head => Function.update_self ..
  simp only [joinBehind, Pages.joinBehind, hself]
  cases hnext : (s.heap.pages.mem b).next with
  | none => rfl
  | some c =>
    simp only
    split <;> rfl

theorem freeLoop_heap (s : Pool) (n npages fuel : ℕ) (prev : Option ℕ) :
    (s.freeLoop n npages fuel prev).map heap =
      (Pages.freeLoop s.heap.pages n npages fuel prev).map fun pages => { s.heap with pages := pages } := by
  induction fuel generalizing prev with
  | zero => rfl
  | succ fuel ih =>
    rw [freeLoop, Pages.freeLoop]
    cases hlink : s.heap.pages.link prev with
    | none =>
      simp only [Option.map_some, setPrev_heap]
      rfl
    | some b =>
      simp only
      split
      · split
        · rw [Option.map_some, joinBehind_heap]
          rfl
        · split
          · rw [Option.map_some, setPrev_heap]
            rfl
          · split
            · rw [Option.map_some, setPrev_heap]
              rfl
            · exact ih (some b)
      · rfl

theorem rtPageFree_heap (s : Pool) (n npages : ℕ) :
    (s.rtPageFree n npages).map heap =
      (Pages.rtPageFree s.heap.pages n npages).map fun pages => { s.heap with pages := pages } := by
  rw [rtPageFree, Pages.rtPageFree]
  split
  · exact s.freeLoop_heap n npages _ none
  · rfl

theorem rtPageFree_eq_some {s s' : Pool} {n npages : ℕ} (hfree : s.rtPageFree n npages = some s') :
    ∃ pages, Pages.rtPageFree s.heap.pages n npages = some pages ∧ s'.heap = { s.heap with pages := pages } := by
  have hheap := s.rtPageFree_heap n npages
  rw [hfree] at hheap
  obtain ⟨pages, hpages, hs'⟩ := Option.map_eq_some_iff.mp hheap.symm
  exact ⟨pages, hpages, hs'.symm⟩

theorem markLoop_heap (value : ℕ → MemUsage) (z n : ℕ) (s : Pool) :
    (markLoop value z n s).heap = { s.heap with memusage := Slab.markLoop value z n s.heap.memusage } := by
  induction n with
  | zero => rfl
  | succ n ih =>
    rw [markLoop, assign_heap, ih]
    rfl

theorem newZone_heap (s : Pool) (zi size : ℕ) :
    (s.newZone zi size).map (fun x => (x.1, x.2.heap)) = Slab.newZone s.heap zi size := by
  rw [newZone, Slab.newZone]
  cases hfree : s.heap.zoneFree with
  | some z => rfl
  | none =>
    simp only
    rcases s.rtPageAlloc_cases (s.heap.zoneSize / pageSize) with ⟨hs, hpages⟩ | ⟨r, s', pages, hs, hpages, hheap⟩
    · rw [hs, hpages]
      rfl
    · rw [hs, hpages]
      cases r with
      | none => simp only [Option.map_some, hheap, hfree]
      | some z =>
        simp only [Option.map_some, initZone, assign_heap, markLoop_heap, hheap, hfree]
        rfl

theorem lessFree_heap (s : Pool) (zi z : ℕ) : (s.lessFree zi z).heap = Slab.lessFree s.heap zi z := by
  unfold lessFree Slab.lessFree
  simp only
  split <;> rfl

theorem takeChunk_heap (s : Pool) (size z : ℕ) :
    (s.takeChunk size z).map (fun x => (x.1, x.2.heap)) = Slab.takeChunk s.heap size z := by
  unfold takeChunk Slab.takeChunk
  simp only
  split
  · rfl
  · rw [Option.map_map]
    rfl

theorem mallocLarge_heap (s : Pool) (size : ℕ) :
    (s.mallocLarge size).map (fun x => (x.1, x.2.heap)) = Slab.mallocLarge s.heap size := by
  simp only [mallocLarge, Slab.mallocLarge]
  rcases s.rtPageAlloc_cases (alignUp 12 size / pageSize) with ⟨hs, hpages⟩ | ⟨r, s', pages, hs, hpages, hheap⟩
  · rw [hs, hpages]
    rfl
  · rw [hs, hpages]
    cases r with
    | none => simp only [Option.map_some, hheap]
    | some z =>
      simp only [Option.map_some, assign_heap, hheap]
      rfl

theorem rtMalloc_heap (s : Pool) (size : ℕ) :
    (s.rtMalloc size).map (fun x => (x.1, x.2.heap)) = Slab.rtMalloc s.heap size := by
  rw [rtMalloc, Slab.rtMalloc]
  split
  · rfl
  · split
    · exact s.mallocLarge_heap size
    · simp only
      split
      · cases harray : s.heap.zoneArray (zoneindex size).1 with
        | none => exact s.newZone_heap _ _
        | some z =>
          simp only
          split
          · rw [← lessFree_heap, ← takeChunk_heap, Option.map_map, Option.map_map]
            rfl
          · rfl
      · rfl

theorem giveChunk_heap (s : Pool) (z ptr : ℕ) : (s.giveChunk z ptr).heap = Slab.giveChunk s.heap z ptr := by
  unfold giveChunk Slab.giveChunk
  simp only
  split <;> rfl

theorem setLink_heap (s : Pool) (zi : ℕ) (pz x : Option ℕ) : (s.setLink zi pz x).heap = s.heap.setLink zi pz x := by
  cases pz <;> rfl

theorem unlinkLoop_heap (s : Pool) (zi z fuel : ℕ) (pz : Option ℕ) :
    (s.unlinkLoop zi z fuel pz).map heap = Slab.unlinkLoop s.heap zi z fuel pz := by
  induction fuel generalizing pz with
  | zero => rfl
  | succ fuel ih =>
    rw [unlinkLoop, Slab.unlinkLoop]
    cases s.heap.link zi pz with
    | none => rfl
    | some b =>
      simp only [Option.bind_some]
      split
      · rw [Option.map_some, setLink_heap]
      · exact ih (some b)

theorem keepZone_heap (s : Pool) (z : ℕ) : (s.keepZone z).heap = Slab.keepZone s.heap z := rfl

theorem releaseZone_heap (s : Pool) : s.releaseZone.map heap = Slab.releaseZone s.heap := by
  rw [releaseZone, Slab.releaseZone]
  split
  · cases s.heap.zoneFree with
    | none => rfl
    | some z =>
      simp only [Option.bind_some, rtPageFree_heap, markLoop_heap]
      rfl
  · rfl

theorem freeChunk_heap (s : Pool) (z ptr : ℕ) : (s.freeChunk z ptr).map heap = Slab.freeChunk s.heap z ptr := by
  unfold freeChunk Slab.freeChunk
  simp only [giveChunk_heap]
  split
  · rw [← giveChunk_heap, ← unlinkLoop_heap]
    cases (s.giveChunk z ptr).unlinkLoop _ z _ none with
    | none => rfl
    | some s' => exact (s'.keepZone z).releaseZone_heap
  · rw [Option.map_some, giveChunk_heap]

theorem rtFree_heap (s : Pool) (ptr : Option ℕ) : (s.rtFree ptr).map heap = Slab.rtFree s.heap ptr := by
  cases ptr with
  | none => rfl
  | some ptr =>
    simp only [rtFree, Slab.rtFree]
    split
    · split
      · rw [rtPageFree_heap]
        rfl
      · rfl
    · split
      · exact s.freeChunk_heap _ ptr
      · rfl

end Pool

end RtThread.Memory.Slab
