import RtThread.Memory.MemHeapRuns
import RtThread.Memory.SmallMemSizes

/-!
# Whether a block is as large as asked

`rt_memheap_alloc` and `rt_memheap_realloc`, and all the calls together. Where a size wraps, the call hands out a block
that is too small, unless it finds none.
-/

namespace RtThread.Memory.MemHeap

open RtThread.Lib.Tiling RtThread.Lib.Transition RtThread.Lib.Word

variable {k : ℕ} {h h' : Memheap} {s : Sys} {labels : ℕ → Option ℕ} {xs ys : List (Tile ℕ)} {b : Tile ℕ}
  {fl : List ℕ} {r n size : ℕ}

/-- The block at the pointer `r` has room for `n` bytes. -/
def Holds (k : ℕ) (h : Memheap) (r n : ℕ) : Prop := memheapSize k ≤ r ∧ r + n ≤ h.next (r - memheapSize k)

def AllocLarge (k : ℕ) (h : Memheap) (size : ℕ) : Prop :=
  ∀ r h', rtMemheapAlloc k h size = some (r, h') → r ≠ 0 → Holds k h' r size

def ReallocLarge (k : ℕ) (h : Memheap) (ptr newsize : ℕ) : Prop :=
  ∀ r h', rtMemheapRealloc k h ptr newsize = some (r, h') → r ≠ 0 → Holds k h' r newsize

/-- When the block at `ptr` gets `newsize` bytes, if it gets a block at all. -/
def ReallocFits (k : ℕ) (h : Memheap) (ptr newsize : ℕ) : Prop :=
  newsize + (2 ^ k - 1) < 2 ^ 32 ∧
    (ptr ≠ 0 → GrowsInPlace k h ptr newsize → requestSize k newsize + memheapMinialloc < 2 ^ 32)

/-- `rt_memheap_realloc` returns `RT_NULL`. -/
def ReallocNone (k : ℕ) (h : Memheap) (ptr newsize : ℕ) : Prop :=
  newsize = 0 ∨ if ptr = 0 then ¬AllocFits k h (requestSize k (requestSize k newsize)) else ReallocFails k h ptr newsize

instance (h : Memheap) (ptr newsize : ℕ) : Decidable (ReallocFits k h ptr newsize) := inferInstanceAs (Decidable (_ ∧ _))

instance (h : Memheap) (ptr newsize : ℕ) : Decidable (ReallocNone k h ptr newsize) := inferInstanceAs (Decidable (_ ∨ _))

theorem holds_add {p : ℕ} : Holds k h (p + memheapSize k) n ↔ p + memheapSize k + n ≤ h.next p := by
  rw [Holds, Nat.add_sub_cancel]
  exact and_iff_right (Nat.le_add_left _ _)

theorem Leaves.room (hl : Leaves k h h' labels) {p : ℕ} (hp : labels p = some n) :
    Holds k h' (p + memheapSize k) n ∧ h'.next p ≤ 2 ^ 32 := by
  obtain ⟨hstart, bs, fl, hs, -, rfl⟩ := hl
  obtain ⟨xs, b, ys, rfl, rfl, hb⟩ := labelAt_eq_some hp
  have hnext := hs.blocks.next_eq
  have hroomy := hs.roomy b (by simp) n hb
  have hend := hs.blocks.bounds.2
  have hbound := hs.blocks.bound
  rw [hstart] at hnext hend hbound
  rw [holds_add, hnext]
  omega

theorem not_holds_of_wrap (hk : k ≤ 30) {p : ℕ} (hnext : h.next p ≤ 2 ^ 32) (hwrap : ¬size + (2 ^ k - 1) < 2 ^ 32) :
    ¬Holds k h (p + memheapSize k) size := by
  have hH := (memheapSize_spec hk).1
  have hpow : 2 ^ k ≤ memheapSize k := Nat.le_of_dvd (by omega) (dvd_alignUp k 24)
  rw [holds_add]
  omega

theorem Resized.leaves {p : ℕ} (hres : Resized k h h' labels p n r) (hp : (labels p).isSome = true) (hne : r ≠ 0) :
    ∃ q labels', r = q + memheapSize k ∧ labels' q = some n ∧ Leaves k h h' labels' := by
  obtain ⟨rfl, -⟩ | ⟨rfl, hl⟩ | ⟨q, rfl, hq, hl⟩ := hres
  · exact absurd rfl hne
  · exact ⟨p, _, rfl, Function.update_self .., hl⟩
  · refine ⟨q, _, rfl, ?_, hl⟩
    have hqp : q ≠ p := by
      rintro rfl
      rw [hq] at hp
      cases hp
    rw [Function.update_of_ne hqp, Function.update_self]

/-- `rt_memheap_alloc` for a size that was adjusted: `n` bytes of it are asked for. -/
theorem alloc_leaves (hk : k ≤ 30) (hg : Good k s) (hn : n ≤ requestSize k size) :
    ∃ r h', rtMemheapAlloc k s.heap size = some (r, h') ∧ (r = 0 ↔ ¬AllocFits k s.heap (requestSize k size)) ∧
      (r ≠ 0 → ∃ q labels, r = q + memheapSize k ∧ labels q = some n ∧ Leaves k s.heap h' labels) := by
  have hH := (memheapSize_spec hk).1
  obtain ⟨bs, fl, hs, hc, -⟩ := hg
  obtain ⟨r, h', halloc, ⟨rfl, -, hnot⟩ | ⟨p, rfl, hfits, -, hl⟩⟩ := rtMemheapAlloc_spec hk hs hc hn
  · exact ⟨0, h', halloc, iff_of_true rfl hnot, fun hne => absurd rfl hne⟩
  · exact ⟨_, h', halloc, iff_of_false (by omega) (not_not.mpr hfits), fun _ => ⟨p, _, rfl, Function.update_self .., hl⟩⟩

theorem alloc_large_iff (hk : k ≤ 30) (hg : Good k s) (size : ℕ) :
    AllocLarge k s.heap size ↔ size + (2 ^ k - 1) < 2 ^ 32 ∨ ¬AllocFits k s.heap (requestSize k size) := by
  constructor
  · intro hlarge
    by_contra hnot
    obtain ⟨hwrap, hfits⟩ := not_or.mp hnot
    obtain ⟨r, h', halloc, hnull, hleaves⟩ := alloc_leaves hk hg (Nat.zero_le _)
    have hne : r ≠ 0 := fun h0 => hfits (hnull.mp h0)
    obtain ⟨q, labels, rfl, hq, hl⟩ := hleaves hne
    exact not_holds_of_wrap hk (hl.room hq).2 hwrap (hlarge _ _ halloc hne)
  · rintro hor r h' halloc hne
    rcases hor with hsize | hnone
    · obtain ⟨r₁, h₁, halloc₁, -, hleaves⟩ := alloc_leaves hk hg (le_requestSize hsize)
      cases halloc.symm.trans halloc₁
      obtain ⟨q, labels, rfl, hq, hl⟩ := hleaves hne
      exact (hl.room hq).1
    · obtain ⟨r₁, h₁, halloc₁, hnull, -⟩ := alloc_leaves hk hg (Nat.zero_le (requestSize k size))
      cases halloc.symm.trans halloc₁
      exact absurd (hnull.mpr hnone) hne

theorem growItem_next (p oldsize newsize : ℕ) :
    (growItem k h p oldsize newsize).next p = add 32 (add 32 p (memheapSize k)) newsize := by
  rw [growItem]
  exact Function.update_self ..

theorem not_holds_of_grow (hk : k ≤ 30) (hs : Shape k h (xs ++ b :: ys) fl) {newsize : ℕ}
    (hgrows : GrowsInPlace k h (h.startAddr + total xs + memheapSize k) newsize)
    (hwrap : ¬requestSize k newsize + memheapMinialloc < 2 ^ 32) (hpos : newsize ≠ 0) :
    ∃ h', rtMemheapRealloc k h (h.startAddr + total xs + memheapSize k) newsize =
        some (h.startAddr + total xs + memheapSize k, h') ∧
      ¬Holds k h' (h.startAddr + total xs + memheapSize k) newsize := by
  have hH := (memheapSize_spec hk).1
  have hmini : memheapMinialloc = 12 := rfl
  have hreq := requestSize_add_lt hk newsize
  obtain ⟨hlen, hend⟩ := hs.blocks.bounds
  have hbound := hs.blocks.bound
  have hp : sub 32 (h.startAddr + total xs + memheapSize k) (memheapSize k) = h.startAddr + total xs := by
    rw [sub_of_le (Nat.le_add_left _ _) (by omega), Nat.add_sub_cancel]
  rw [GrowsInPlace, hp] at hgrows
  obtain ⟨hlarger, hroom⟩ := hgrows
  have hnext : h.startAddr + total xs < h.next (h.startAddr + total xs) := by
    rw [hs.blocks.next_eq]
    omega
  refine ⟨(growItem k h (h.startAddr + total xs) (memitemSize k h (h.startAddr + total xs)) (requestSize k newsize)).record,
    ?_, ?_⟩
  · rw [rtMemheapRealloc, if_neg hpos, if_neg (by omega)]
    simp only [hp]
    rw [if_pos hlarger, if_pos hnext, if_pos hroom]
  · rw [holds_add]
    simp only [Memheap.record]
    rw [growItem_next, @add_of_lt 32 (h.startAddr + total xs) _ (by omega), add, Nat.mod_eq_sub_mod (by omega),
      Nat.mod_eq_of_lt (by omega)]
    omega

theorem realloc_null_large_iff (hk : k ≤ 30) (hg : Good k s) (newsize : ℕ) :
    ReallocLarge k s.heap 0 newsize ↔ ReallocFits k s.heap 0 newsize ∨ ReallocNone k s.heap 0 newsize := by
  rw [ReallocFits, ReallocNone, if_pos rfl]
  have hskip : ((0 : ℕ) ≠ 0 → GrowsInPlace k s.heap 0 newsize → requestSize k newsize + memheapMinialloc < 2 ^ 32) ↔ True :=
    iff_true_intro fun hne => absurd rfl hne
  rw [hskip, and_true]
  by_cases hpos : newsize = 0
  · refine iff_of_true ?_ (Or.inr (Or.inl hpos))
    intro r h' hrealloc hne
    rw [rtMemheapRealloc, if_pos hpos] at hrealloc
    obtain ⟨h₁, -, hpair⟩ := Option.map_eq_some_iff.mp hrealloc
    cases hpair
    exact absurd rfl hne
  · have hsame : ∀ x, rtMemheapRealloc k s.heap 0 newsize = x ↔ rtMemheapAlloc k s.heap (requestSize k newsize) = x := by
      intro x
      rw [rtMemheapRealloc, if_neg hpos]
      simp only [if_true]
    have hreq := requestSize_add_lt hk newsize
    simp only [ReallocLarge, hsame, hpos, false_or]
    constructor
    · intro hlarge
      by_contra hnot
      obtain ⟨hwrap, hfits⟩ := not_or.mp hnot
      obtain ⟨r, h', halloc, hnull, hleaves⟩ := alloc_leaves hk hg (Nat.zero_le _)
      have hne : r ≠ 0 := fun h0 => hfits (hnull.mp h0)
      obtain ⟨q, labels, rfl, hq, hl⟩ := hleaves hne
      exact not_holds_of_wrap hk (hl.room hq).2 hwrap (hlarge _ _ halloc hne)
    · rintro hor r h' halloc hne
      rcases hor with hsize | hnone
      · -- the size is adjusted twice
        obtain ⟨r₁, h₁, halloc₁, -, hleaves⟩ := alloc_leaves hk hg ((le_requestSize hsize).trans (le_requestSize hreq))
        cases halloc.symm.trans halloc₁
        obtain ⟨q, labels, rfl, hq, hl⟩ := hleaves hne
        exact (hl.room hq).1
      · obtain ⟨r₁, h₁, halloc₁, hnull, -⟩ := alloc_leaves hk hg (Nat.zero_le (requestSize k (requestSize k newsize)))
        cases halloc.symm.trans halloc₁
        exact absurd (hnull.mpr hnone) hne

theorem realloc_live_large_iff (hk : k ≤ 30) (hg : Good k s) {ptr : ℕ} (hlive : (s.live ptr).isSome = true) (newsize : ℕ) :
    ReallocLarge k s.heap ptr newsize ↔ ReallocFits k s.heap ptr newsize ∨ ReallocNone k s.heap ptr newsize := by
  have hH := (memheapSize_spec hk).1
  obtain ⟨bs, fl, hs, hc, hl⟩ := hg
  rw [hl] at hlive
  obtain ⟨xs, b, ys, m, rfl, hb, rfl⟩ := block_of_live hlive
  have hxs : ∀ c ∈ xs, 0 < c.len := fun c hc => hs.blocks.pos hk c (by simp [hc])
  have hlabel : (labelAt s.heap.startAddr (xs ++ b :: ys) (s.heap.startAddr + total xs)).isSome = true := by
    rw [labelAt_middle hxs, hb]
    rfl
  rw [ReallocFits, ReallocNone, if_neg (show s.heap.startAddr + total xs + memheapSize k ≠ 0 by omega)]
  by_cases hpos : newsize = 0
  · refine iff_of_true ?_ (Or.inr (Or.inl hpos))
    intro r h' hrealloc hne
    rw [rtMemheapRealloc, if_pos hpos] at hrealloc
    obtain ⟨h₁, -, hpair⟩ := Option.map_eq_some_iff.mp hrealloc
    cases hpair
    exact absurd rfl hne
  · by_cases hwrap : GrowsInPlace k s.heap (s.heap.startAddr + total xs + memheapSize k) newsize →
        requestSize k newsize + memheapMinialloc < 2 ^ 32
    · constructor
      · intro hlarge
        by_contra hnot
        obtain ⟨hsize, hnone⟩ := not_or.mp hnot
        obtain ⟨r, h', hrealloc, hres, hnull, -⟩ := resize_spec hk hs hc hb (Nat.zero_le _) hpos hwrap
        have hne : r ≠ 0 := fun h0 => hnone (Or.inr (hnull.mp h0))
        obtain ⟨q, labels, rfl, hq, hl'⟩ := hres.leaves hlabel hne
        exact not_holds_of_wrap hk (hl'.room hq).2 (fun hlt => hsize ⟨hlt, fun _ => hwrap⟩) (hlarge _ _ hrealloc hne)
      · rintro hor r h' hrealloc hne
        rcases hor with ⟨hsize, -⟩ | hnone
        · obtain ⟨r₁, h₁, hrealloc₁, hres, -⟩ := resize_spec hk hs hc hb (le_requestSize hsize) hpos hwrap
          cases hrealloc.symm.trans hrealloc₁
          obtain ⟨q, labels, rfl, hq, hl'⟩ := hres.leaves hlabel hne
          exact (hl'.room hq).1
        · obtain ⟨r₁, h₁, hrealloc₁, -, hnull, -⟩ := resize_spec hk hs hc hb (Nat.zero_le (requestSize k newsize)) hpos hwrap
          cases hrealloc.symm.trans hrealloc₁
          exact absurd (hnull.mpr (hnone.resolve_left hpos)) hne
    · obtain ⟨hgrows, hsum⟩ := Classical.not_imp.mp hwrap
      obtain ⟨h', hrealloc, hnot⟩ := not_holds_of_grow hk hs hgrows hsum hpos
      refine iff_of_false (fun hlarge => hnot (hlarge _ _ hrealloc (by omega))) ?_
      rintro (⟨-, hfits⟩ | hzero | hfails)
      · exact hwrap (hfits (by omega))
      · exact hpos hzero
      · exact hfails.2.1 hgrows

end RtThread.Memory.MemHeap

namespace RtThread.Memory

open RtThread.Lib.Transition

/-- In every state of a run a block that is handed out is as large as asked, exactly when the size does not wrap or no
block is found for what it wraps to. `rt_realloc` releases the block when its size wraps, and `rt_memheap_realloc` also
hands out too little when it adds `RT_MEMHEAP_MINIALLOC` to a size and that wraps. -/
theorem block_large_iff {k : ℕ} (hk : k ≤ 30) :
    (∀ (m : Lib.Bytes.Mem) (beginAddr endAddr : ℕ) (h : SmallMem.Heap) (acts : List SmallMem.Act) (s : SmallMem.Sys),
      endAddr < 2 ^ 32 → SmallMem.rtSystemHeapInit k m beginAddr endAddr = some h →
      exec (SmallMem.step k) ⟨h, fun _ => none⟩ acts = some s →
      (∀ size, SmallMem.MallocLarge k s.heap size ↔ size + (2 ^ k - 1) < 2 ^ 32 ∨ SmallMem.FindsNone k s.heap size) ∧
      (∀ count size, SmallMem.CallocLarge k s.heap count size ↔
        count * size + (2 ^ k - 1) < 2 ^ 32 ∨ SmallMem.FindsNone k s.heap (count * size % 2 ^ 32)) ∧
      (∀ rmem newsize, newsize < 2 ^ 32 → (rmem = 0 ∨ (s.live rmem).isSome = true) →
        SmallMem.ReallocLarge k s.heap rmem newsize) ∧
      ∀ size align, (∃ b, b < 32 ∧ align = 2 ^ b) → (SmallMem.MallocAlignLarge k s.heap size align ↔
        SmallMem.AlignFits k size align ∨ SmallMem.AlignFindsNone k s.heap size align)) ∧
    (∀ (h : MemHeap.Memheap) (startAddr size : ℕ) (acts : List MemHeap.Act) (s : MemHeap.Sys), size < 2 ^ 32 →
      startAddr + size ≤ 2 ^ 32 → 2 * MemHeap.memheapSize k ≤ size / 2 ^ k * 2 ^ k →
      (h.freeHeader < startAddr ∨ startAddr + size ≤ h.freeHeader) →
      AllSteps (MemHeap.step k) (MemHeap.SumFits k) ⟨MemHeap.rtMemheapInit k h startAddr size, fun _ => none⟩ acts →
      exec (MemHeap.step k) ⟨MemHeap.rtMemheapInit k h startAddr size, fun _ => none⟩ acts = some s →
      (∀ n, MemHeap.AllocLarge k s.heap n ↔
        n + (2 ^ k - 1) < 2 ^ 32 ∨ ¬MemHeap.AllocFits k s.heap (MemHeap.requestSize k n)) ∧
      ∀ ptr newsize, ptr = 0 ∨ (s.live ptr).isSome = true → (MemHeap.ReallocLarge k s.heap ptr newsize ↔
        MemHeap.ReallocFits k s.heap ptr newsize ∨ MemHeap.ReallocNone k s.heap ptr newsize)) := by
  constructor
  · intro m beginAddr endAddr h acts s hend hinit hrun
    have hf := SmallMem.init_fresh hk hend hinit
    have hr := SmallMem.run_reached hk hend hinit hrun
    refine ⟨SmallMem.malloc_large_iff hk hf hr, SmallMem.calloc_large_iff hk hf hr, ?_, ?_⟩
    · intro rmem newsize hsize hlive
      exact SmallMem.realloc_large hk hf hr hsize hlive
    · intro size align halign
      exact SmallMem.malloc_align_large_iff hk hf hr halign
  · intro h startAddr size acts s hsize hbound hroom houtside hfits hrun
    have hg := MemHeap.run_good hk hsize hbound hroom houtside hfits hrun
    refine ⟨MemHeap.alloc_large_iff hk hg, fun ptr newsize hptr => ?_⟩
    rcases hptr with rfl | hlive
    · exact MemHeap.realloc_null_large_iff hk hg newsize
    · exact MemHeap.realloc_live_large_iff hk hg hlive newsize

theorem block_large_iff_sample :
    (∃ h s, SmallMem.rtSystemHeapInit 2 (fun _ => 0xaa) 0x20000001 0x20000100 = some h ∧
      exec (SmallMem.step 2) ⟨h, fun _ => none⟩ [.malloc 20, .malloc 40, .free 0x20000010] = some s ∧
      SmallMem.MallocLarge 2 s.heap 30 ∧ SmallMem.CallocLarge 2 s.heap 5 7 ∧ SmallMem.ReallocLarge 2 s.heap 0x20000030 60 ∧
      SmallMem.MallocAlignLarge 2 s.heap 10 64) ∧
    ∃ s, exec (MemHeap.step 2) MemHeap.sampleInit [.alloc 16, .alloc 20, .free 0x20000018] = some s ∧
      MemHeap.AllocLarge 2 s.heap 60 ∧ MemHeap.ReallocLarge 2 s.heap 0x20000040 50 := by
  constructor
  · have hrun : ((SmallMem.rtSystemHeapInit 2 (fun _ => 0xaa) 0x20000001 0x20000100).bind fun h =>
        (exec (SmallMem.step 2) ⟨h, fun _ => none⟩ [.malloc 20, .malloc 40, .free 0x20000010]).map fun s =>
          (s.live 0x20000030).isSome) = some true := by decide +kernel
    simp only [Option.bind_eq_some_iff, Option.map_eq_some_iff] at hrun
    obtain ⟨h, hinit, s, hs, hlive⟩ := hrun
    obtain ⟨hmalloc, hcalloc, hrealloc, halign⟩ := (block_large_iff (by decide)).1 _ _ _ h _ s (by decide) hinit hs
    exact ⟨h, s, hinit, hs, (hmalloc 30).mpr (Or.inl (by decide)), (hcalloc 5 7).mpr (Or.inl (by decide)),
      hrealloc _ _ (by decide) (Or.inr hlive), (halign 10 64 ⟨6, by decide, by decide⟩).mpr (Or.inl (by decide))⟩
  · have hrun : ((exec (MemHeap.step 2) MemHeap.sampleInit [.alloc 16, .alloc 20, .free 0x20000018]).map fun s =>
        ((s.live 0x20000040).isSome, decide (MemHeap.ReallocFits 2 s.heap 0x20000040 50))) = some (true, true) := by
      decide +kernel
    have hfits : AllSteps (MemHeap.step 2) (MemHeap.SumFits 2) MemHeap.sampleInit
      [.alloc 16, .alloc 20, .free 0x20000018] := by decide +kernel
    simp only [Option.map_eq_some_iff, Prod.mk.injEq] at hrun
    obtain ⟨s, hs, hlive, hsum⟩ := hrun
    obtain ⟨halloc, hrealloc⟩ := (block_large_iff (by decide)).2 MemHeap.sampleHeap 0x20000000 256 _ s (by decide) (by decide)
      (by decide) (by decide) hfits hs
    exact ⟨s, hs, (halloc 60).mpr (Or.inl (by decide)),
      (hrealloc _ 50 (Or.inr hlive)).mpr (Or.inl (of_decide_eq_true hsum))⟩

/-- A size that wraps gives a block of 12 bytes. -/
theorem wrapped_sizes_short :
    (∃ h, SmallMem.rtSystemHeapInit 2 (fun _ => 0xaa) 0x20000001 0x20000100 = some h ∧
      exec (SmallMem.step 2) ⟨h, fun _ => none⟩ [] = some ⟨h, fun _ => none⟩ ∧
      ¬SmallMem.MallocLarge 2 h 0xFFFFFFFF ∧ ¬SmallMem.CallocLarge 2 h 0x80000001 2 ∧
      ¬SmallMem.MallocAlignLarge 2 h 0xFFFFFFFF 8) ∧
    exec (MemHeap.step 2) MemHeap.sampleInit [] = some MemHeap.sampleInit ∧
    ¬MemHeap.AllocLarge 2 MemHeap.sampleInit.heap 0xFFFFFFFF ∧
    ∃ s, exec (MemHeap.step 2) MemHeap.sampleInit [.alloc 16] = some s ∧
      ¬MemHeap.ReallocLarge 2 s.heap 0x20000018 0xFFFFFFFA := by
  refine ⟨?_, rfl, fun hlarge => ?_, ?_⟩
  · have hrun : ((SmallMem.rtSystemHeapInit 2 (fun _ => 0xaa) 0x20000001 0x20000100).bind fun h =>
        (SmallMem.rtMalloc 2 h 0xFFFFFFFF).bind fun x => (SmallMem.rtCalloc 2 h 0x80000001 2).bind fun y =>
          (SmallMem.rtMallocAlign 2 h 0xFFFFFFFF 8).map fun z =>
            ((x.2, x.1.heapPtr + SmallMem.nextOf x.1.mem (x.1.block 2 x.2)),
              (y.2, y.1.heapPtr + SmallMem.nextOf y.1.mem (y.1.block 2 y.2)),
              z.2, z.1.heapPtr + SmallMem.nextOf z.1.mem (z.1.block 2 (z.1.realPtr z.2)))) =
          some ((0x20000010, 0x2000001c), (0x20000010, 0x2000001c), 0x20000018, 0x2000001c) := by decide +kernel
    simp only [Option.bind_eq_some_iff, Option.map_eq_some_iff, Prod.mk.injEq] at hrun
    obtain ⟨h, hinit, ⟨hx, x⟩, hmalloc, ⟨hy, y⟩, hcalloc, ⟨hz, z⟩, halign, ⟨hx₁, hx₂⟩, ⟨hy₁, hy₂⟩, hz₁, hz₂⟩ := hrun
    simp only at hx₁ hx₂ hy₁ hy₂ hz₁ hz₂
    subst hx₁ hy₁ hz₁
    refine ⟨h, hinit, rfl, fun hlarge => ?_, fun hlarge => ?_, fun hlarge => ?_⟩
    · have hle := (hlarge _ _ hmalloc (by decide)).2
      rw [hx₂] at hle
      exact absurd hle (by decide)
    · have hle := (hlarge _ _ hcalloc (by decide)).2
      rw [hy₂] at hle
      exact absurd hle (by decide)
    · have hle := (hlarge _ _ halign (by decide)).2
      rw [hz₂] at hle
      exact absurd hle (by decide)
  · have hrun : ((MemHeap.rtMemheapAlloc 2 MemHeap.sampleInit.heap 0xFFFFFFFF).map fun x => (x.1, x.2.next 0x20000000)) =
        some (0x20000018, 0x20000024) := by decide +kernel
    simp only [Option.map_eq_some_iff, Prod.mk.injEq] at hrun
    obtain ⟨⟨r, h'⟩, halloc, hr, hnext⟩ := hrun
    simp only at hr hnext
    subst hr
    have hle := (hlarge _ _ halloc (by decide)).2
    rw [show (0x20000018 : ℕ) - MemHeap.memheapSize 2 = 0x20000000 from rfl, hnext] at hle
    exact absurd hle (by decide)
  · have hrun : ((exec (MemHeap.step 2) MemHeap.sampleInit [.alloc 16]).bind fun s =>
        (MemHeap.rtMemheapRealloc 2 s.heap 0x20000018 0xFFFFFFFA).map fun x => (x.1, x.2.next 0x20000000)) =
          some (0x20000018, 0x20000014) := by decide +kernel
    simp only [Option.bind_eq_some_iff, Option.map_eq_some_iff, Prod.mk.injEq] at hrun
    obtain ⟨s, hs, ⟨r, h'⟩, hrealloc, hr, hnext⟩ := hrun
    simp only at hr hnext
    subst hr
    refine ⟨s, hs, fun hlarge => ?_⟩
    have hle := (hlarge _ _ hrealloc (by decide)).2
    rw [show (0x20000018 : ℕ) - MemHeap.memheapSize 2 = 0x20000000 from rfl, hnext] at hle
    exact absurd hle (by decide)

end RtThread.Memory
