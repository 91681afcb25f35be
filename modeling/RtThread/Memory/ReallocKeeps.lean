import RtThread.Memory.MemHeapContent
import RtThread.Memory.SmallMemContent
import RtThread.Memory.AllocSizes

/-!
# Whether a change of size keeps the data

`rt_realloc` in every state of a run. `rt_memheap_realloc` writes the new free item over the block when the sum with
`RT_MEMHEAP_MINIALLOC` wraps.
-/

namespace RtThread.Memory.MemHeap

open RtThread.Lib.Bytes RtThread.Lib.Tiling RtThread.Lib.Transition RtThread.Lib.Word

variable {k : ℕ} {h h' : Memheap} {s : Sys} {xs ys : List (Tile ℕ)} {b : Tile ℕ} {fl : List ℕ}

/-- The block at `r` is in use, and has its size and its data from before. -/
def SameBlock (k : ℕ) (s s' : Pool) (r : ℕ) : Prop :=
  s'.heap.isUsed (r - memheapSize k) ∧ Spares k s s' (r - memheapSize k)

/-- Whatever the memory holds: `rt_memheap_realloc` returns, and fails and changes nothing, or returns a block with the
data of the old one, and leaves the other blocks alone. -/
def ReallocKeeps (k : ℕ) (s : Sys) (ptr newsize : ℕ) : Prop :=
  ∀ m : Mem, ∃ r s', Pool.rtMemheapRealloc k ⟨s.heap, m⟩ ptr newsize = some (r, s') ∧ (r = 0 → s' = ⟨s.heap, m⟩) ∧
    (r ≠ 0 → (∀ i, i < min (memitemSize k s.heap (ptr - memheapSize k)) newsize → s'.mem (r + i) = m (ptr + i)) ∧
      ∀ r', r' ≠ ptr → (s.live r').isSome = true → r' ≠ r ∧ SameBlock k ⟨s.heap, m⟩ s' r')

theorem Counted.record_eq (hc : Counted h) : h.record = h := by
  have hmax : max h.peak h.used = h.peak := max_eq_left hc.2
  rw [Memheap.record, hmax]

theorem Leaves.isUsed {labels : ℕ → Option ℕ} (hl : Leaves k h h' labels) {p n : ℕ} (hp : labels p = some n) :
    h'.isUsed p := by
  obtain ⟨hstart, bs, fl, hs, -, rfl⟩ := hl
  obtain ⟨xs, b, ys, rfl, rfl, hb⟩ := labelAt_eq_some hp
  have hused := hs.blocks.isUsed_iff
  rw [hstart] at hused
  exact hused.mpr (by rw [hb]; rfl)

theorem realloc_keeps (hk : k ≤ 30) (hg : Good k s) (hout : HeaderOutside s.heap) {ptr newsize : ℕ}
    (hlive : (s.live ptr).isSome = true) (hsize : newsize + (2 ^ k - 1) < 2 ^ 32) (hpos : 0 < newsize)
    (hfits : SumFits k s (.realloc ptr newsize)) : ReallocKeeps k s ptr newsize := by
  intro m
  have hH := (memheapSize_spec hk).1
  obtain ⟨bs, fl, hs, hc, hl⟩ := hg
  rw [hl] at hlive
  obtain ⟨xs, b, ys, n, rfl, hb, rfl⟩ := block_of_live hlive
  have hblocks := hs.blocks
  have hxs : ∀ c ∈ xs, 0 < c.len := fun c hc => hblocks.pos hk c (by simp [hc])
  have hsum : GrowsInPlace k s.heap (s.heap.startAddr + total xs + memheapSize k) newsize →
      requestSize k newsize + memheapMinialloc < 2 ^ 32 := fun hgrows => hfits (by omega) hgrows.2.1
  obtain ⟨r, h', hrealloc, hres, -, hsame⟩ := resize_spec hk hs hc hb (le_requestSize hsize) (by omega) hsum
  have hheap := (⟨s.heap, m⟩ : Pool).rtMemheapRealloc_heap (k := k) (s.heap.startAddr + total xs + memheapSize k) newsize
  rw [hrealloc] at hheap
  obtain ⟨⟨r₁, s'⟩, hrun, hpair⟩ := Option.map_eq_some_iff.mp hheap
  obtain ⟨rfl, hs'⟩ := Prod.mk.inj hpair
  obtain ⟨hnone, hdata⟩ := rtMemheapRealloc_data (s := ⟨s.heap, m⟩) hk hs hc hout hb (by omega) hsize hsum hrun
  refine ⟨r₁, s', hrun, fun hnull => ?_, fun hne => ?_⟩
  · have hheap' : s'.heap = s.heap := by
      rw [hs', hsame hnull]
      exact hc.record_eq
    have hmem : s'.mem = m := hnone hnull
    rw [← hheap', ← hmem]
  · obtain ⟨hown, hothers⟩ := hdata hne
    rw [Nat.add_sub_cancel, hblocks.size_eq hk]
    refine ⟨hown, fun r' hne' hlive' => ?_⟩
    rw [hl] at hlive'
    obtain ⟨i, hi⟩ := Option.isSome_iff_exists.mp hlive'
    obtain ⟨q, rfl, hq⟩ := liveOf_eq_some hi
    have hqp : q ≠ s.heap.startAddr + total xs := by
      rintro rfl
      exact hne' rfl
    obtain ⟨c, hc', -⟩ := mem_held_of_labelAt hq
    have hspares := hothers _ hc' hqp
    rw [SameBlock, Nat.add_sub_cancel]
    rcases hres with ⟨rfl, -⟩ | ⟨rfl, hleaves⟩ | ⟨p, rfl, hp, hleaves⟩
    · exact absurd rfl hne
    · refine ⟨hne', ?_, hspares⟩
      rw [hs']
      exact hleaves.isUsed ((Function.update_of_ne hqp _ _).trans hq)
    · have hqp' : q ≠ p := by
        rintro rfl
        rw [hp] at hq
        cases hq
      refine ⟨by omega, ?_, hspares⟩
      rw [hs']
      refine hleaves.isUsed (n := i) ?_
      rw [Function.update_of_ne hqp, Function.update_of_ne hqp']
      exact hq

/-! ### Where the sum wraps -/

theorem foldl_store_agree {m m' : Mem} {x : ℕ} (hm : m x = m' x) (l : List Assign) :
    l.foldl Assign.store m x = l.foldl Assign.store m' x := by
  induction l generalizing m m' with
  | nil => exact hm
  | cons a l ih =>
    refine ih ?_
    exact store_agree a.value hm

theorem foldl_store_covered {x : ℕ} {l : List Assign}
    (hl : ∃ a ∈ l, a.item + a.field.offset ≤ x ∧ x < a.item + a.field.offset + 4) (m m' : Mem) :
    l.foldl Assign.store m x = l.foldl Assign.store m' x := by
  induction l generalizing m m' with
  | nil =>
    obtain ⟨a, ha, -⟩ := hl
    cases ha
  | cons a l ih =>
    obtain ⟨c, hc, hx⟩ := hl
    rcases List.mem_cons.mp hc with rfl | hc
    · exact foldl_store_agree (store_covered c.value hx m m') l
    · exact ih ⟨c, hc, hx⟩ _ _

theorem newItem_covered {g : Memheap} {p q x : ℕ} (hx : q ≤ x ∧ x < q + 16) (m m' : Mem) :
    (((⟨g, m⟩ : Pool).newItem p q).insertFree q).mem x = (((⟨g, m'⟩ : Pool).newItem p q).insertFree q).mem x := by
  refine foldl_store_agree (foldl_store_covered ?_ m m') _
  simp only [newItemAssigns, List.exists_mem_cons_iff, Field.offset]
  omega

theorem growItem_covered {p q oldsize newsize x : ℕ} (hq : add 32 (add 32 p (memheapSize k)) newsize = q)
    (hx : q ≤ x ∧ x < q + 16) (m m' : Mem) :
    ((⟨h, m⟩ : Pool).growItem k p oldsize newsize).mem x = ((⟨h, m'⟩ : Pool).growItem k p oldsize newsize).mem x := by
  have hcut : ∀ m : Mem, ∃ m₁, (⟨h, m⟩ : Pool).growItem k p oldsize newsize = (((⟨mergeItem (removeFree (h.charge
      (sub 32 h.availableSize (sub 32 newsize oldsize))) (h.next p)) (h.prev (h.next p)) (h.next p), m₁⟩ : Pool).newItem
        p q).insertFree q) := by
    intro m
    unfold Pool.growItem
    rw [hq]
    exact ⟨_, rfl⟩
  obtain ⟨m₁, h₁⟩ := hcut m
  obtain ⟨m₂, h₂⟩ := hcut m'
  rw [h₁, h₂]
  exact newItem_covered hx m₁ m₂

theorem not_keeps_of_wrap (hk : k ≤ 30) (hg : Good k s) {ptr newsize : ℕ} (hlive : (s.live ptr).isSome = true)
    (hpos : 0 < newsize) (hwrap : ¬SumFits k s (.realloc ptr newsize)) : ¬ReallocKeeps k s ptr newsize := by
  have hH := (memheapSize_spec hk).1
  have hmini : memheapMinialloc = 12 := rfl
  obtain ⟨bs, fl, hs, hc, hl⟩ := hg
  rw [hl] at hlive
  obtain ⟨xs, b, ys, n, rfl, hb, rfl⟩ := block_of_live hlive
  have hblocks := hs.blocks
  obtain ⟨hlen, hend⟩ := hblocks.bounds
  have hbound := hblocks.bound
  have hroomy := hs.roomy b (by simp) n hb
  have hreq := requestSize_add_lt hk newsize
  have hp : sub 32 (s.heap.startAddr + total xs + memheapSize k) (memheapSize k) = s.heap.startAddr + total xs := by
    rw [sub_of_le (Nat.le_add_left _ _) (by omega), Nat.add_sub_cancel]
  simp only [SumFits, hp, hblocks.next_eq, Classical.not_imp] at hwrap
  obtain ⟨-, hfree, hsum⟩ := hwrap
  obtain ⟨c, zs, rfl, hvacant⟩ := hblocks.next_vacant.mp hfree
  rw [total] at hend
  have hclen : memheapSize k ≤ c.len := hblocks.len c (by simp)
  have hplace : (s.heap.startAddr + total xs + b.len, c) ∈ place s.heap.startAddr (xs ++ b :: c :: zs) := by
    simp [place]
  have hcsize : memitemSize k s.heap (s.heap.startAddr + total xs + b.len) = c.len - memheapSize k := by
    rw [memitemSize, hblocks.next_place hplace, sub_of_le (Nat.le_add_right _ _) (by simp only; omega),
      Nat.add_sub_cancel_left, sub_of_le hclen (by omega)]
  -- the block is made larger in place, whatever the memory holds
  have hrun : ∀ m : Mem, Pool.rtMemheapRealloc k ⟨s.heap, m⟩ (s.heap.startAddr + total xs + memheapSize k) newsize =
      some (s.heap.startAddr + total xs + memheapSize k, ((⟨s.heap, m⟩ : Pool).growItem k (s.heap.startAddr + total xs)
        (b.len - memheapSize k) (requestSize k newsize)).record) := by
    intro m
    have hroom : add 32 (requestSize k newsize) memheapMinialloc < add 32 (c.len - memheapSize k) (b.len - memheapSize k) := by
      rw [@add_of_lt 32 (c.len - memheapSize k) _ (by omega), add, Nat.mod_eq_sub_mod (by omega), Nat.mod_eq_of_lt (by omega)]
      omega
    rw [Pool.rtMemheapRealloc, if_neg (by omega), if_neg (by omega)]
    simp only [hp, hblocks.size_eq hk, hblocks.next_eq, hcsize]
    rw [if_pos (by omega), if_pos (by omega), if_pos ⟨hfree, hroom⟩]
  obtain ⟨q, hq⟩ : ∃ q, add 32 (add 32 (s.heap.startAddr + total xs) (memheapSize k)) (requestSize k newsize) = q := ⟨_, rfl⟩
  have hqv : q + 2 ^ 32 = s.heap.startAddr + total xs + memheapSize k + requestSize k newsize := by
    rw [← hq, @add_of_lt 32 (s.heap.startAddr + total xs) _ (by omega), add, Nat.mod_eq_sub_mod (by omega),
      Nat.mod_eq_of_lt (by omega)]
    omega
  intro hkeeps
  -- the first byte of the data becomes the same, be it 0 or 1
  have hbyte : ∀ v : BitVec 8, ((⟨s.heap, fun _ => v⟩ : Pool).growItem k (s.heap.startAddr + total xs)
      (b.len - memheapSize k) (requestSize k newsize)).mem (s.heap.startAddr + total xs + memheapSize k) = v := by
    intro v
    obtain ⟨r, s', hrealloc, -, hdata⟩ := hkeeps fun _ => v
    obtain ⟨rfl, rfl⟩ := Prod.mk.inj (Option.some.inj ((hrun _).symm.trans hrealloc))
    refine (hdata (by omega)).1 0 ?_
    rw [Nat.add_sub_cancel, hblocks.size_eq hk]
    omega
  have hsame := @growItem_covered k s.heap _ q (b.len - memheapSize k) _ _ hq
    (show q ≤ s.heap.startAddr + total xs + memheapSize k ∧ s.heap.startAddr + total xs + memheapSize k < q + 16 by omega)
    (fun _ => 0) fun _ => 1
  rw [hbyte, hbyte] at hsame
  exact absurd hsame (by decide)

theorem init_region (startAddr size : ℕ) :
    (rtMemheapInit k h startAddr size).region = (startAddr, size / 2 ^ k * 2 ^ k, h.freeHeader) := by
  simp only [rtMemheapInit, insertFree, Memheap.region]

end RtThread.Memory.MemHeap

namespace RtThread.Memory

open RtThread.Lib.Transition

/-- In every state of a run `rt_realloc` and `rt_memheap_realloc` keep the data, or fail and change nothing: the first
one always, the second one exactly when the aligned size and `RT_MEMHEAP_MINIALLOC` do not wrap or the next item of the
block is in use. -/
theorem realloc_keeps_data_iff {k : ℕ} (hk : k ≤ 30) :
    (∀ (m : Lib.Bytes.Mem) (beginAddr endAddr : ℕ) (h : SmallMem.Heap) (acts : List SmallMem.Act) (s : SmallMem.Sys),
      endAddr < 2 ^ 32 → SmallMem.rtSystemHeapInit k m beginAddr endAddr = some h →
      exec (SmallMem.step k) ⟨h, fun _ => none⟩ acts = some s →
      ∀ rmem newsize, (s.live rmem).isSome = true → 0 < newsize → newsize + (2 ^ k - 1) < 2 ^ 32 →
        SmallMem.ReallocKeeps k s rmem newsize) ∧
    (∀ (h : MemHeap.Memheap) (startAddr size : ℕ) (acts : List MemHeap.Act) (s : MemHeap.Sys), size < 2 ^ 32 →
      startAddr + size ≤ 2 ^ 32 → 2 * MemHeap.memheapSize k ≤ size / 2 ^ k * 2 ^ k →
      (h.freeHeader + 24 ≤ startAddr ∨ startAddr + size ≤ h.freeHeader) →
      AllSteps (MemHeap.step k) (MemHeap.SumFits k) ⟨MemHeap.rtMemheapInit k h startAddr size, fun _ => none⟩ acts →
      exec (MemHeap.step k) ⟨MemHeap.rtMemheapInit k h startAddr size, fun _ => none⟩ acts = some s →
      ∀ ptr newsize, (s.live ptr).isSome = true → 0 < newsize → newsize + (2 ^ k - 1) < 2 ^ 32 →
        (MemHeap.ReallocKeeps k s ptr newsize ↔ MemHeap.SumFits k s (.realloc ptr newsize))) := by
  constructor
  · intro m beginAddr endAddr h acts s hend hinit hrun rmem newsize hlive hpos hsize
    rcases SmallMem.run_reached hk hend hinit hrun with hg | ⟨-, rfl⟩
    · exact SmallMem.realloc_keeps hk hg hlive hsize hpos
    · cases hlive
  · intro h startAddr size acts s hsize hbound hroom hout hfits hrun ptr newsize hlive hpos hnew
    have hg := MemHeap.run_good hk hsize hbound hroom (by omega) hfits hrun
    have houtside : MemHeap.HeaderOutside s.heap := by
      have hregion := (MemHeap.run_region hrun).trans (MemHeap.init_region startAddr size)
      have hle : size / 2 ^ k * 2 ^ k ≤ size := Nat.div_mul_le_self _ _
      simp only [MemHeap.Memheap.region, Prod.mk.injEq] at hregion
      rw [MemHeap.HeaderOutside, hregion.1, hregion.2.1, hregion.2.2]
      omega
    constructor
    · intro hkeeps
      by_contra hwrap
      exact MemHeap.not_keeps_of_wrap hk hg hlive hpos hwrap hkeeps
    · exact MemHeap.realloc_keeps hk hg houtside hlive hnew hpos

theorem realloc_keeps_data_iff_sample :
    (∃ h s, SmallMem.rtSystemHeapInit 2 (fun _ => 0xaa) 0x20000001 0x20000100 = some h ∧
      exec (SmallMem.step 2) ⟨h, fun _ => none⟩ [.malloc 20, .malloc 40, .free 0x20000010] = some s ∧
      SmallMem.ReallocKeeps 2 s 0x20000030 60) ∧
    ∃ s, exec (MemHeap.step 2) MemHeap.sampleInit [.alloc 16, .alloc 20, .free 0x20000018] = some s ∧
      MemHeap.ReallocKeeps 2 s 0x20000040 50 := by
  constructor
  · have hrun : ((SmallMem.rtSystemHeapInit 2 (fun _ => 0xaa) 0x20000001 0x20000100).bind fun h =>
        (exec (SmallMem.step 2) ⟨h, fun _ => none⟩ [.malloc 20, .malloc 40, .free 0x20000010]).map fun s =>
          (s.live 0x20000030).isSome) = some true := by decide +kernel
    simp only [Option.bind_eq_some_iff, Option.map_eq_some_iff] at hrun
    obtain ⟨h, hinit, s, hs, hlive⟩ := hrun
    exact ⟨h, s, hinit, hs, (realloc_keeps_data_iff (by decide)).1 _ _ _ h _ s (by decide) hinit hs _ 60 hlive (by decide)
      (by decide)⟩
  · have hrun : ((exec (MemHeap.step 2) MemHeap.sampleInit [.alloc 16, .alloc 20, .free 0x20000018]).map fun s =>
        ((s.live 0x20000040).isSome, decide (MemHeap.SumFits 2 s (.realloc 0x20000040 50)))) = some (true, true) := by
      decide +kernel
    have hfits : AllSteps (MemHeap.step 2) (MemHeap.SumFits 2) MemHeap.sampleInit
      [.alloc 16, .alloc 20, .free 0x20000018] := by decide +kernel
    simp only [Option.map_eq_some_iff, Prod.mk.injEq] at hrun
    obtain ⟨s, hs, hlive, hsum⟩ := hrun
    exact ⟨s, hs, ((realloc_keeps_data_iff (by decide)).2 MemHeap.sampleHeap 0x20000000 256 _ s (by decide) (by decide)
      (by decide) (by decide) hfits hs _ 50 hlive (by decide) (by decide)).mpr (of_decide_eq_true hsum)⟩

/-- A block of 16 bytes is to become one of 4294967290: the header of the new item is written over its data. -/
theorem realloc_overwrites_data :
    ∃ s, exec (MemHeap.step 2) MemHeap.sampleInit [.alloc 16] = some s ∧ (s.live 0x20000018).isSome = true ∧
      0xFFFFFFFA + (2 ^ 2 - 1) < 2 ^ 32 ∧ ¬MemHeap.ReallocKeeps 2 s 0x20000018 0xFFFFFFFA := by
  have hrun : ((exec (MemHeap.step 2) MemHeap.sampleInit [.alloc 16]).bind fun s =>
      (MemHeap.Pool.rtMemheapRealloc 2 ⟨s.heap, fun _ => 0xaa⟩ 0x20000018 0xFFFFFFFA).map fun x =>
        ((s.live 0x20000018).isSome, x.1, x.2.mem 0x20000018,
          MemHeap.memitemSize 2 s.heap (0x20000018 - MemHeap.memheapSize 2))) =
        some (true, 0x20000018, 0xe8, 16) := by decide +kernel
  simp only [Option.bind_eq_some_iff, Option.map_eq_some_iff, Prod.mk.injEq] at hrun
  obtain ⟨s, hs, ⟨r, s'⟩, hrealloc, hlive, hr, hbyte, hitem⟩ := hrun
  refine ⟨s, hs, hlive, by decide, fun hkeeps => ?_⟩
  obtain ⟨r₁, s₁, hrealloc₁, -, hdata⟩ := hkeeps fun _ => 0xaa
  cases hrealloc.symm.trans hrealloc₁
  simp only at hr hbyte
  subst hr
  have hsame := (hdata (by decide)).1 0 (by rw [hitem]; decide)
  rw [Nat.add_zero, hbyte] at hsame
  exact absurd hsame (by decide)

end RtThread.Memory
