import RtThread.Memory.MemHeapRuns
import RtThread.Memory.SmallMemLowest

/-!
# When an allocation fails

The search of `rt_malloc` ends at `mem_size_aligned - size`, and `rt_memheap_alloc` does not search unless the size is
less than `available_size`. Each bound leaves one free block out that is exactly large enough.
-/

namespace RtThread.Memory.SmallMem

open RtThread.Lib.Bytes RtThread.Lib.Word RtThread.Lib.Tiling RtThread.Lib.Transition

variable {k : ℕ} {m : Mem} {h : Heap} {s : Sys} {bs : List (Tile ℕ)}

/-- `rt_malloc` fails only when no unused block is large enough. -/
def MallocComplete (k : ℕ) (h : Heap) (size : ℕ) : Prop :=
  ∀ h', rtMalloc k h size = some (h', 0) → ∀ p ∈ h.unused k, dataSize k h.mem p < request k size

/-- The last block is the only unused one that is large enough, and has no byte too many. -/
def OnlyLastFits (k : ℕ) (h : Heap) (size : ℕ) : Prop :=
  h.memSizeAligned - size ∈ h.unused k ∧ dataSize k h.mem (h.memSizeAligned - size) = size ∧
    ∀ p ∈ h.unused k, size ≤ dataSize k h.mem p → p = h.memSizeAligned - size

instance (h : Heap) (size : ℕ) : Decidable (OnlyLastFits k h size) := inferInstanceAs (Decidable (_ ∧ _))

/-- `rt_malloc`, `rt_free`, and what the owners of the blocks write. -/
def Act.MallocFree : Act → Prop
  | .malloc _ => True
  | .free _ => True
  | .write _ _ _ => True
  | _ => False

theorem unused_room (hk : k ≤ 30) (hs : Shape k h bs) {p : ℕ} (hp : p ∈ h.unused k) :
    p + dataSize k h.mem p ≤ h.memSizeAligned := by
  rw [unused_eq hk hs] at hp
  obtain ⟨xs, b, ys, rfl, rfl, -⟩ := mem_vacant hp
  obtain ⟨-, -, hlen, -, htotal⟩ := hs.cons
  rw [Nat.zero_add, dataSize_eq hs]
  rw [Heap.heapEnd] at htotal
  omega

/-- `rt_malloc` returns `RT_NULL` exactly when the search finds nothing. -/
theorem rtMalloc_null_iff (hk : k ≤ 30) (hi : Inv k h bs) {size : ℕ} (hpos : size ≠ 0) :
    (∃ h', rtMalloc k h size = some (h', 0)) ↔ firstFit k h (request k size) = none := by
  have h12 := (sizeof_spec hk).1
  obtain ⟨h₁, r, hr, hspec⟩ := rtMalloc_spec hk hi (Nat.zero_le (request k size))
  rcases hspec with ⟨rfl, -, hnone⟩ | ⟨bs', p, l, rfl, ⟨-, hsome⟩, -⟩
  · exact iff_of_true ⟨h₁, hr⟩ (hnone hpos)
  · refine iff_of_false ?_ (by rw [hsome]; exact Option.some_ne_none p)
    rintro ⟨h', hnull⟩
    rw [hnull] at hr
    simp only [Option.some.injEq, Prod.mk.injEq] at hr
    omega

theorem firstFit_eq_none_iff (hk : k ≤ 30) (hs : Shape k h bs) (hlow : LowestFree k h) (size : ℕ) :
    firstFit k h size = none ↔ ∀ p ∈ h.unused k, size ≤ dataSize k h.mem p → p = h.memSizeAligned - size := by
  rw [firstFit, List.find?_eq_none]
  refine forall₂_congr fun p hp => ?_
  have hroom := unused_room hk hs hp
  have hle := hlow.lowest p hp
  simp only [decide_eq_true_eq, not_and]
  constructor
  · intro hnot hfit
    by_contra hne
    exact hnot hle (by omega) hfit
  · intro hlast _ hlt hfit
    have := hlast hfit
    omega

theorem malloc_complete_iff (hk : k ≤ 30) (hi : Inv k h bs) (hlow : LowestFree k h) {size : ℕ} (hpos : size ≠ 0) :
    MallocComplete k h size ↔ ¬OnlyLastFits k h (request k size) := by
  have hnull := (rtMalloc_null_iff hk hi hpos).trans (firstFit_eq_none_iff hk hi.shape hlow _)
  constructor
  · rintro hcomplete ⟨hlast, hexact, honly⟩
    obtain ⟨h', hmalloc⟩ := hnull.mpr honly
    have hlt := hcomplete h' hmalloc _ hlast
    omega
  · intro hnot h' hmalloc p hp
    have honly := hnull.mp ⟨h', hmalloc⟩
    by_contra hge
    have hfit := not_lt.mp hge
    have hplace := honly p hp hfit
    have hroom := unused_room hk hi.shape hp
    refine hnot ⟨hplace ▸ hp, ?_, honly⟩
    rw [← hplace]
    omega

/-- `lfree` stays the lowest unused block when only `rt_malloc` and `rt_free` are called. -/
theorem run_lowest (hk : k ≤ 30) (hf : Fresh k h) (h₀ : Reached k h ⟨h, fun _ => none⟩) {acts : List Act}
    (hacts : ∀ a ∈ acts, a.MallocFree) (hrun : exec (step k) ⟨h, fun _ => none⟩ acts = some s) :
    Reached k h s ∧ LowestFree k s.heap := by
  refine exec_inv_of_forall (fun s => Reached k h s ∧ LowestFree k s.heap) Act.MallocFree ?_ ⟨h₀, hf.lowestFree hk⟩ hacts hrun
  rintro s a s' ⟨hr, hlow⟩ ha hstep
  refine ⟨hr.step hk hf hstep, (reached_low_iff hk hf hr hlow hstep).mpr ?_⟩
  cases a with
  | realloc rmem newsize => cases ha
  | _ => trivial

/-- In a heap without room for a block nothing fits that `rt_malloc` refuses. -/
theorem Fresh.complete (hk : k ≤ 30) (hf : Fresh k h) (htiny : h.memSizeAligned < minSizeAligned k) (size : ℕ) :
    MallocComplete k h size ↔ ¬OnlyLastFits k h (request k size) := by
  have hdata : ∀ p ∈ h.unused k, dataSize k h.mem p = h.memSizeAligned := by
    intro p hp
    rw [hf.unused_eq hk, List.mem_singleton] at hp
    rw [hp]
    exact hf.dataSize_eq hk
  have hlarge : h.memSizeAligned < request k size := by
    rw [request]
    split <;> omega
  refine iff_of_true (fun h' _ p hp => ?_) ?_
  · rw [hdata p hp]
    exact hlarge
  · rintro ⟨hlast, hexact, -⟩
    rw [hdata _ hlast] at hexact
    omega

end RtThread.Memory.SmallMem

namespace RtThread.Memory.MemHeap

open RtThread.Lib.Tiling RtThread.Lib.Transition RtThread.Lib.Word

variable {k : ℕ} {h : Memheap} {s : Sys} {bs : List (Tile ℕ)} {fl : List ℕ}

/-- `rt_memheap_alloc` fails only when no free block is large enough. -/
def AllocComplete (k : ℕ) (h : Memheap) (size : ℕ) : Prop :=
  ∀ h', rtMemheapAlloc k h size = some (0, h') → ∀ p ∈ h.freeItems k, memitemSize k h p < requestSize k size

/-- All that is available is in one block, and is what is asked for. -/
def TakesAll (k : ℕ) (h : Memheap) (size : ℕ) : Prop :=
  size = h.availableSize ∧ ∃ p ∈ h.freeItems k, memitemSize k h p = size

instance (h : Memheap) (size : ℕ) : Decidable (TakesAll k h size) := inferInstanceAs (Decidable (_ ∧ _))

theorem memitemSize_le_available (hk : k ≤ 30) (hs : Shape k h bs fl) {p : ℕ} (hp : p ∈ h.freeItems k) :
    memitemSize k h p ≤ h.availableSize := by
  have hb := hs.blocks
  rw [freeItems_eq hk hb] at hp
  obtain ⟨xs, b, ys, rfl, rfl, hvacant⟩ := mem_vacant hp
  rw [hb.size_eq hk, hs.available, spare_append, spare_cons_of_none ys hvacant]
  omega

theorem rtMemheapAlloc_null_iff (hk : k ≤ 30) (hs : Shape k h bs fl) (hc : Counted h) (size : ℕ) :
    (∃ h', rtMemheapAlloc k h size = some (0, h')) ↔ ¬AllocFits k h (requestSize k size) := by
  have hH := memheapSize_spec hk
  obtain ⟨r, h₁, hr, ⟨rfl, -, hnot⟩ | ⟨p, rfl, hfits, -⟩⟩ := rtMemheapAlloc_spec hk hs hc (Nat.zero_le (requestSize k size))
  · exact iff_of_true ⟨h₁, hr⟩ hnot
  · refine iff_of_false ?_ (not_not.mpr hfits)
    rintro ⟨h', hnull⟩
    rw [hnull] at hr
    simp only [Option.some.injEq, Prod.mk.injEq] at hr
    omega

theorem alloc_complete_iff (hk : k ≤ 30) (hs : Shape k h bs fl) (hc : Counted h) (size : ℕ) :
    AllocComplete k h size ↔ ¬TakesAll k h (requestSize k size) := by
  have hnull := rtMemheapAlloc_null_iff hk hs hc size
  constructor
  · rintro hcomplete ⟨hall, p, hp, hexact⟩
    obtain ⟨h', halloc⟩ := hnull.mpr fun hfits => by
      have := hfits.1
      omega
    have hlt := hcomplete h' halloc p hp
    omega
  · intro hnot h' halloc p hp
    by_contra hge
    have hle := memitemSize_le_available hk hs hp
    by_cases hlt : requestSize k size < h.availableSize
    · exact hnull.mp ⟨h', halloc⟩ ⟨hlt, p, hp, not_lt.mp hge⟩
    · exact hnot ⟨by omega, p, hp, by omega⟩

end RtThread.Memory.MemHeap

namespace RtThread.Memory

open RtThread.Lib.Transition

/-- Where the searches leave a block out: `rt_malloc` the last one, when it is the only one and exactly large enough;
`rt_memheap_alloc` the one that holds all that is available, when that is asked for. In all other states they fail only
when nothing is large enough. -/
theorem alloc_fails_iff {k : ℕ} (hk : k ≤ 30) :
    (∀ (m : Lib.Bytes.Mem) (beginAddr endAddr : ℕ) (h : SmallMem.Heap) (acts : List SmallMem.Act) (s : SmallMem.Sys)
      (size : ℕ), endAddr < 2 ^ 32 → SmallMem.rtSystemHeapInit k m beginAddr endAddr = some h →
      (∀ a ∈ acts, a.MallocFree) → exec (SmallMem.step k) ⟨h, fun _ => none⟩ acts = some s → 0 < size →
      (SmallMem.MallocComplete k s.heap size ↔ ¬SmallMem.OnlyLastFits k s.heap (SmallMem.request k size))) ∧
    (∀ (h : MemHeap.Memheap) (startAddr size : ℕ) (acts : List MemHeap.Act) (s : MemHeap.Sys) (n : ℕ), size < 2 ^ 32 →
      startAddr + size ≤ 2 ^ 32 → 2 * MemHeap.memheapSize k ≤ size / 2 ^ k * 2 ^ k →
      (h.freeHeader < startAddr ∨ startAddr + size ≤ h.freeHeader) →
      AllSteps (MemHeap.step k) (MemHeap.SumFits k) ⟨MemHeap.rtMemheapInit k h startAddr size, fun _ => none⟩ acts →
      exec (MemHeap.step k) ⟨MemHeap.rtMemheapInit k h startAddr size, fun _ => none⟩ acts = some s →
      (MemHeap.AllocComplete k s.heap n ↔ ¬MemHeap.TakesAll k s.heap (MemHeap.requestSize k n))) := by
  constructor
  · intro m beginAddr endAddr h acts s size hend hinit hacts hrun hpos
    have hf := SmallMem.init_fresh hk hend hinit
    obtain ⟨⟨bs, hi, -⟩ | ⟨htiny, rfl⟩, hlow⟩ :=
      SmallMem.run_lowest hk hf (SmallMem.init_reached hk hend hinit) hacts hrun
    · exact SmallMem.malloc_complete_iff hk hi hlow (Nat.ne_of_gt hpos)
    · exact hf.complete hk htiny size
  · intro h startAddr size acts s n hsize hbound hroom houtside hfits hrun
    obtain ⟨bs, fl, hs, hc, -⟩ := MemHeap.run_good hk hsize hbound hroom houtside hfits hrun
    exact MemHeap.alloc_complete_iff hk hs hc n

theorem alloc_fails_iff_sample :
    (∃ h s, SmallMem.rtSystemHeapInit 2 (fun _ => 0xaa) 0x20000001 0x20000100 = some h ∧
      exec (SmallMem.step 2) ⟨h, fun _ => none⟩ [.malloc 20, .malloc 40, .free 0x20000010] = some s ∧
      SmallMem.MallocComplete 2 s.heap 150) ∧
    ∃ s, exec (MemHeap.step 2) MemHeap.sampleInit [.alloc 16, .alloc 20, .free 0x20000018] = some s ∧
      MemHeap.AllocComplete 2 s.heap 130 := by
  constructor
  · have hrun : ((SmallMem.rtSystemHeapInit 2 (fun _ => 0xaa) 0x20000001 0x20000100).bind fun h =>
        (exec (SmallMem.step 2) ⟨h, fun _ => none⟩ [.malloc 20, .malloc 40, .free 0x20000010]).map fun s =>
          decide (SmallMem.OnlyLastFits 2 s.heap (SmallMem.request 2 150))) = some false := by decide +kernel
    simp only [Option.bind_eq_some_iff, Option.map_eq_some_iff] at hrun
    obtain ⟨h, hinit, s, hs, hnot⟩ := hrun
    refine ⟨h, s, hinit, hs, ((alloc_fails_iff (by decide)).1 _ _ _ h _ s 150 (by decide) hinit ?_ hs (by decide)).mpr
      (of_decide_eq_false hnot)⟩
    simp [SmallMem.Act.MallocFree]
  · have hrun : ((exec (MemHeap.step 2) MemHeap.sampleInit [.alloc 16, .alloc 20, .free 0x20000018]).map fun s =>
        decide (MemHeap.TakesAll 2 s.heap (MemHeap.requestSize 2 130))) = some false := by decide +kernel
    have hfits : AllSteps (MemHeap.step 2) (MemHeap.SumFits 2) MemHeap.sampleInit
      [.alloc 16, .alloc 20, .free 0x20000018] := by decide +kernel
    obtain ⟨s, hs, hnot⟩ := Option.map_eq_some_iff.mp hrun
    exact ⟨s, hs, ((alloc_fails_iff (by decide)).2 _ _ _ _ s 130 (by decide) (by decide) (by decide) (by decide) hfits hs).mpr
      (of_decide_eq_false hnot)⟩

/-- Neither heap hands out its one block in full. -/
theorem alloc_refuses_exact_fit :
    (∃ h s, SmallMem.rtSystemHeapInit 2 (fun _ => 0xaa) 0x20000001 0x20000100 = some h ∧
      exec (SmallMem.step 2) ⟨h, fun _ => none⟩ [] = some s ∧ ¬SmallMem.MallocComplete 2 s.heap 228) ∧
    ∃ s, exec (MemHeap.step 2) MemHeap.sampleInit [] = some s ∧ ¬MemHeap.AllocComplete 2 s.heap 208 := by
  constructor
  · have hrun : ((SmallMem.rtSystemHeapInit 2 (fun _ => 0xaa) 0x20000001 0x20000100).bind fun h =>
        (SmallMem.rtMalloc 2 h 228).map fun r => (r.2, h.unused 2, SmallMem.dataSize 2 h.mem 0)) =
          some (0, [0], 228) := by decide
    simp only [Option.bind_eq_some_iff, Option.map_eq_some_iff, Prod.mk.injEq] at hrun
    obtain ⟨h, hinit, ⟨h', r⟩, hmalloc, hnull, hunused, hdata⟩ := hrun
    refine ⟨h, ⟨h, fun _ => none⟩, hinit, rfl, fun hcomplete => ?_⟩
    obtain rfl : r = 0 := hnull
    have hlt := hcomplete h' hmalloc 0 (by rw [hunused]; decide)
    rw [hdata] at hlt
    exact absurd hlt (by decide)
  · have hrun : ((MemHeap.rtMemheapAlloc 2 MemHeap.sampleInit.heap 208).map fun r =>
        (r.1, MemHeap.sampleInit.heap.freeItems 2, MemHeap.memitemSize 2 MemHeap.sampleInit.heap 0x20000000)) =
          some (0, [0x20000000], 208) := by decide
    simp only [Option.map_eq_some_iff, Prod.mk.injEq] at hrun
    obtain ⟨⟨r, h'⟩, halloc, hnull, hfree, hdata⟩ := hrun
    refine ⟨MemHeap.sampleInit, rfl, fun hcomplete => ?_⟩
    obtain rfl : r = 0 := hnull
    have hlt := hcomplete h' halloc 0x20000000 (by rw [hfree]; decide)
    rw [hdata] at hlt
    exact absurd hlt (by decide)

end RtThread.Memory
