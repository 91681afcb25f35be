import RtThread.Lib.Chain
import RtThread.Lib.Word
import RtThread.Memory.Pages

/-!
# The slab allocator (`slab.c`, 32-bit)

A pointer to a zone is the number of its first page, as in the page allocator; a pointer to a chunk is
an address. `RT_NULL` is `none`. The zone headers, the link in a chunk and the page descriptors are maps
from their places; `memusage` is a map from the page numbers. A function without a result stands for a
failed assertion, for a null pointer that is followed, or for a loop that has not ended within its fuel.
Calls come one after the other, so the semaphore is left out, and so are the statistics.
-/

namespace RtThread.Memory.Slab

open RtThread.Lib.Word RtThread.Memory.Pages

/-- `RT_MM_PAGE_SIZE`. -/
def pageSize : ℕ := 4096

def zallocSlabMagic : ℤ := 0x51ab51ab

def zallocZoneLimit : ℕ := 16 * 1024

def zallocMinZoneSize : ℕ := 32 * 1024

def zallocMaxZoneSize : ℕ := 128 * 1024

def nzones : ℕ := 72

def zoneReleaseThresh : ℕ := 2

/-- `sizeof(slab_zone)`: nine words. -/
def sizeofSlabZone : ℕ := 36

inductive PageType where
  | free
  | small
  | large
  deriving DecidableEq

structure MemUsage where
  type : PageType
  size : ℕ
  deriving DecidableEq

structure SlabZone where
  zMagic : ℤ
  zNfree : ℕ
  zNmax : ℕ
  zNext : Option ℕ
  zBaseptr : ℕ
  zUindex : ℕ
  zChunksize : ℕ
  zZoneindex : ℕ
  zFreechunk : Option ℕ

structure Heap where
  pages : PageHeap
  zoneArray : ℕ → Option ℕ
  zoneFree : Option ℕ
  zoneFreeCnt : ℤ
  zoneSize : ℕ
  zoneLimit : ℕ
  zonePageCnt : ℕ
  memusage : ℕ → MemUsage
  zone : ℕ → SlabZone
  cNext : ℕ → Option ℕ

def Heap.setZone (h : Heap) (z : ℕ) (zone : SlabZone) : Heap := { h with zone := Function.update h.zone z zone }

def Heap.setArray (h : Heap) (zi : ℕ) (x : Option ℕ) : Heap :=
  { h with zoneArray := Function.update h.zoneArray zi x }

/-- The loop that finds the size of the zones (`slab.c:375-377`); the size is doubled twice at most. -/
def zoneSizeLoop (limsize : ℕ) : ℕ → ℕ → ℕ
  | 0, size => size
  | fuel + 1, size =>
    if size < zallocMaxZoneSize ∧ size * 2 < limsize / 1024 then zoneSizeLoop limsize fuel (size * 2) else size

/-- `rt_system_heap_init` (`slab.c:344-395`), with what the memory holds; the static variables are zero. -/
def rtSystemHeapInit (mem : ℕ → PageHead) (memusage : ℕ → MemUsage) (zone : ℕ → SlabZone) (cNext : ℕ → Option ℕ)
    (beginAddr endAddr : ℕ) : Option Heap :=
  let heapStart := alignUp 12 beginAddr
  let heapEnd := endAddr / pageSize * pageSize
  -- `rt_page_init` asserts that the address is not null
  if heapStart < heapEnd ∧ heapStart ≠ 0 then
    let limsize := heapEnd - heapStart
    let npages := limsize / pageSize
    let zoneSize := zoneSizeLoop limsize 2 zallocMinZoneSize
    (rtPageInit mem (heapStart / pageSize) npages).bind fun pages =>
      (rtPageAlloc pages (alignUp 12 (npages * 4) / pageSize)).map fun x =>
        { pages := x.2
          zoneArray := fun _ => none
          zoneFree := none
          zoneFreeCnt := 0
          zoneSize := zoneSize
          zoneLimit := if zallocZoneLimit < zoneSize / 4 then zallocZoneLimit else zoneSize / 4
          zonePageCnt := zoneSize / pageSize
          memusage := memusage
          zone := zone
          cNext := cNext }
  else none

/-- `zoneindex` (`slab.c:401-459`): the index of the zone, and the chunk size. -/
def zoneindex (n : ℕ) : ℕ × ℕ :=
  if n < 128 then
    let n := alignUp 3 n
    (sub 32 (n / 8) 1, n)
  else if n < 256 then
    let n := alignUp 4 n
    (n / 16 + 7, n)
  else if n < 8192 then
    if n < 512 then
      let n := alignUp 5 n
      (n / 32 + 15, n)
    else if n < 1024 then
      let n := alignUp 6 n
      (n / 64 + 23, n)
    else if n < 2048 then
      let n := alignUp 7 n
      (n / 128 + 31, n)
    else if n < 4096 then
      let n := alignUp 8 n
      (n / 256 + 39, n)
    else
      let n := alignUp 9 n
      (n / 512 + 47, n)
  else if n < 16384 then
    let n := alignUp 10 n
    (n / 1024 + 55, n)
  else (0, n)

/-- The loops that describe the pages of a zone (`slab.c:615-622`, `slab.c:885-891`). -/
def markLoop (value : ℕ → MemUsage) (z : ℕ) : ℕ → (ℕ → MemUsage) → ℕ → MemUsage
  | 0, memusage => memusage
  | off + 1, memusage => Function.update (markLoop value z off memusage) (z + off) (value off)

/-- Where the chunks of a zone begin (`slab.c:629-638`): a power of two is aligned to itself. -/
def chunkOffset (size : ℕ) : ℕ :=
  if (size ||| (size - 1)) + 1 = size * 2 then (sizeofSlabZone + size - 1) &&& (2 ^ 32 - size)
  else alignUp 3 sizeofSlabZone

/-- The zone `z` becomes one for chunks of `size` bytes, and the first chunk is taken (`slab.c:625-652`). -/
def initZone (h : Heap) (zi size z : ℕ) : ℕ × Heap :=
  let off := chunkOffset size
  let nmax := (h.zoneSize - off) / size
  let zone : SlabZone :=
    { zMagic := zallocSlabMagic
      zZoneindex := zi
      zNmax := nmax
      zNfree := nmax - 1
      zBaseptr := z * pageSize + off
      zUindex := 0
      zChunksize := size
      zNext := h.zoneArray zi
      zFreechunk := none }
  (zone.zBaseptr + zone.zUindex * size, (h.setZone z zone).setArray zi (some z))

/-- A new zone (`slab.c:590-652`): one that was kept, or pages of the page allocator. -/
def newZone (h : Heap) (zi size : ℕ) : Option (Option ℕ × Heap) :=
  match h.zoneFree with
  | some z =>
    let x := initZone { h with zoneFree := (h.zone z).zNext, zoneFreeCnt := h.zoneFreeCnt - 1 } zi size z
    some (some x.1, x.2)
  | none =>
    (rtPageAlloc h.pages (h.zoneSize / pageSize)).map fun p =>
      match p.1 with
      | none => (none, { h with pages := p.2 })
      | some z =>
        let x := initZone { h with
          pages := p.2, memusage := markLoop (fun off => ⟨.small, off⟩) z h.zonePageCnt h.memusage } zi size z
        (some x.1, x.2)

/-- The zone at the head of `zone_array[zi]` has one free chunk less (`slab.c:543-548`). -/
def lessFree (h : Heap) (zi z : ℕ) : Heap :=
  let zone := { h.zone z with zNfree := (h.zone z).zNfree - 1 }
  if zone.zNfree = 0 then (h.setArray zi zone.zNext).setZone z { zone with zNext := none } else h.setZone z zone

/-- A chunk that was never used, or else the first of the free ones (`slab.c:556-568`). -/
def takeChunk (h : Heap) (size z : ℕ) : Option (ℕ × Heap) :=
  let zone := h.zone z
  if zone.zUindex + 1 ≠ zone.zNmax then
    let zone := { zone with zUindex := zone.zUindex + 1 }
    some (zone.zBaseptr + zone.zUindex * size, h.setZone z zone)
  else
    zone.zFreechunk.map fun chunk => (chunk, h.setZone z { zone with zFreechunk := h.cNext chunk })

/-- Pages of the page allocator (`slab.c:493-520`). -/
def mallocLarge (h : Heap) (size : ℕ) : Option (Option ℕ × Heap) :=
  let npages := alignUp 12 size / pageSize
  (rtPageAlloc h.pages npages).map fun p =>
    match p.1 with
    | none => (none, { h with pages := p.2 })
    | some chunk =>
      (some (chunk * pageSize),
        { h with pages := p.2, memusage := Function.update h.memusage chunk ⟨.large, npages⟩ })

/-- `rt_malloc` (`slab.c:478-667`): the address it returns. -/
def rtMalloc (h : Heap) (size : ℕ) : Option (Option ℕ × Heap) :=
  if size = 0 then some (none, h)
  else if h.zoneLimit ≤ size then mallocLarge h size
  else
    let x := zoneindex size
    if x.1 < nzones then
      match h.zoneArray x.1 with
      | some z =>
        if 0 < (h.zone z).zNfree then
          (takeChunk (lessFree h x.1 z) x.2 z).map fun y => (some y.1, y.2)
        else none
      | none => newZone h x.1 x.2
    else none

/-- The chunk is put before the free ones of its zone, which is linked if it had none (`slab.c:830-846`). -/
def giveChunk (h : Heap) (z ptr : ℕ) : Heap :=
  let zone := h.zone z
  let h := { h with cNext := Function.update h.cNext ptr zone.zFreechunk }
  if zone.zNfree = 0 then
    let zone := { zone with
      zFreechunk := some ptr, zNfree := zone.zNfree + 1, zNext := h.zoneArray zone.zZoneindex }
    (h.setZone z zone).setArray zone.zZoneindex (some z)
  else h.setZone z { zone with zFreechunk := some ptr, zNfree := zone.zNfree + 1 }

/-- `*pz`: `none` is the place of `zone_array[zi]`, and `some b` that of the `z_next` of the zone `b`. -/
def Heap.link (h : Heap) (zi : ℕ) (pz : Option ℕ) : Option ℕ :=
  match pz with
  | none => h.zoneArray zi
  | some b => (h.zone b).zNext

/-- `*pz = x`. -/
def Heap.setLink (h : Heap) (zi : ℕ) (pz x : Option ℕ) : Heap :=
  match pz with
  | none => h.setArray zi x
  | some b => h.setZone b { h.zone b with zNext := x }

/-- The zone `z` is taken out of `zone_array[zi]` (`slab.c:863-865`). -/
def unlinkLoop (h : Heap) (zi z : ℕ) : ℕ → Option ℕ → Option Heap
  | 0, _ => none
  | fuel + 1, pz =>
    (h.link zi pz).bind fun b =>
      if b = z then some (h.setLink zi pz (h.zone z).zNext) else unlinkLoop h zi z fuel (some b)

/-- The zone is kept on `zone_free` (`slab.c:868-874`). -/
def keepZone (h : Heap) (z : ℕ) : Heap :=
  { h.setZone z { h.zone z with zMagic := -1, zNext := h.zoneFree } with
    zoneFree := some z, zoneFreeCnt := h.zoneFreeCnt + 1 }

/-- The first zone of `zone_free` goes back to the page allocator, if there are too many (`slab.c:877-900`). -/
def releaseZone (h : Heap) : Option Heap :=
  if (zoneReleaseThresh : ℤ) < h.zoneFreeCnt then
    h.zoneFree.bind fun z =>
      (rtPageFree h.pages z (h.zoneSize / pageSize)).map fun pages =>
        { h with
          pages := pages
          zoneFree := (h.zone z).zNext
          zoneFreeCnt := h.zoneFreeCnt - 1
          memusage := markLoop (fun _ => ⟨.free, 0⟩) z h.zonePageCnt h.memusage }
  else some h

/-- A chunk of the zone `z` is freed (`slab.c:830-903`). -/
def freeChunk (h : Heap) (z ptr : ℕ) : Option Heap :=
  let h := giveChunk h z ptr
  let zone := h.zone z
  if zone.zNfree = zone.zNmax ∧ (zone.zNext.isSome = true ∨ h.zoneArray zone.zZoneindex ≠ some z) then
    (unlinkLoop h zone.zZoneindex z h.pages.fuel none).bind fun h => releaseZone (keepZone h z)
  else some h

/-- `rt_free` (`slab.c:771-904`). -/
def rtFree (h : Heap) (ptr : Option ℕ) : Option Heap :=
  match ptr with
  | none => some h
  | some ptr =>
    let page := ptr / pageSize
    let kup := h.memusage page
    if kup.type = .large then
      if ptr % pageSize = 0 then
        (rtPageFree h.pages page kup.size).map fun pages =>
          { h with pages := pages, memusage := Function.update h.memusage page ⟨.large, 0⟩ }
      else none
    else
      let z := page - kup.size
      if (h.zone z).zMagic = zallocSlabMagic then freeChunk h z ptr else none

end RtThread.Memory.Slab
