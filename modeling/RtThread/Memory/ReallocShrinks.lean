import RtThread.Memory.ReallocKeeps
import RtThread.Memory.AllocFails

/-!
# Whether a block can be made smaller

`rt_realloc` moves a block that is to give back less than a block takes, and so fails when the heap is full.
`rt_memheap_realloc` leaves such a block as it is.
-/

namespace RtThread.Memory.SmallMem

open RtThread.Lib.Bytes RtThread.Lib.Tiling RtThread.Lib.Transition RtThread.Lib.Word

variable {k : ℕ} {h : Heap} {s : Sys} {xs ys : List (Tile ℕ)} {b : Tile ℕ}

/-- `rt_realloc` returns a block. -/
def ReallocGives (k : ℕ) (h : Heap) (rmem newsize : ℕ) : Prop :=
  ∃ h' r, rtRealloc k h rmem newsize = some (h', r) ∧ r ≠ 0

/-- An unused block from `lfree` on is large enough, and begins where the search of `rt_malloc` gets to. -/
def HasFit (k : ℕ) (h : Heap) (size : ℕ) : Prop :=
  ∃ p ∈ h.unused k, h.lfree ≤ p ∧ p < h.memSizeAligned - request k size ∧ request k size ≤ dataSize k h.mem p

/-- The block has the size already, or enough is left for another block, or one is free that the data can move to. -/
def ShrinkFits (k : ℕ) (h : Heap) (rmem newsize : ℕ) : Prop :=
  alignUp k newsize = h.room k rmem ∨ alignUp k newsize + sizeofStructMem k + minSize < h.room k rmem ∨
    HasFit k h (alignUp k newsize)

theorem hasFit_iff {size : ℕ} : HasFit k h size ↔ firstFit k h (request k size) ≠ none := by
  rw [firstFit, ne_eq, List.find?_eq_none, HasFit]
  simp only [decide_eq_true_eq, not_forall, not_not, exists_prop]

theorem lt_of_alignUp_pos (hk : k ≤ 30) {size : ℕ} (hsize : size < 2 ^ 32) (hpos : 0 < alignUp k size) :
    size + (2 ^ k - 1) < 2 ^ 32 ∧ 0 < size := by
  have hpow := Nat.two_pow_pos k
  constructor
  · by_contra hwrap
    rw [alignUp_wrap hsize (not_lt.mp hwrap) (by omega)] at hpos
    exact lt_irrefl 0 hpos
  · rcases Nat.eq_zero_or_pos size with rfl | hlt
    · have hle : 2 ^ k ≤ 2 ^ 30 := Nat.pow_le_pow_right (by omega) hk
      rw [alignUp, Nat.zero_add, Nat.mod_eq_of_lt (by omega), Nat.div_eq_of_lt (by omega), Nat.zero_mul] at hpos
      exact absurd hpos (lt_irrefl 0)
    · exact hlt

/-- A block that moves is lost to `RT_NULL` exactly when `rt_malloc` finds none. -/
theorem reallocMove_gives_iff (hk : k ≤ 30) {n₀ newsize size : ℕ} (hi : Inv k h (xs ++ [b] ++ ys))
    (hb : b.label = some n₀) (hcopy : newsize ≤ request k newsize) (hpos : newsize ≠ 0) :
    (∃ h' r, reallocMove k h (h.heapPtr + total xs + sizeofStructMem k) size newsize = some (h', r) ∧ r ≠ 0) ↔
      HasFit k h newsize := by
  obtain ⟨h', r, hmove, -⟩ := @reallocMove_spec k h xs ys b hk n₀ newsize newsize size hi hb hcopy le_rfl
  rw [hasFit_iff, ne_eq, ← rtMalloc_null_iff hk hi hpos]
  obtain ⟨⟨h₁, r₁⟩, hmalloc, hrest⟩ := Option.bind_eq_some_iff.mp hmove
  simp only at hrest
  split at hrest
  · rename_i hnull
    cases hrest
    refine iff_of_false ?_ (not_not.mpr ⟨h', by rw [hmalloc, hnull]⟩)
    rintro ⟨h₂, r₂, hmove₂, hne⟩
    rw [hmove] at hmove₂
    cases hmove₂
    exact hne rfl
  · rename_i hne
    obtain ⟨h₂, -, hpair⟩ := Option.map_eq_some_iff.mp hrest
    cases hpair
    refine iff_of_true ⟨_, _, hmove, hne⟩ ?_
    rintro ⟨h₃, hnull⟩
    rw [hmalloc] at hnull
    cases hnull
    exact hne rfl

theorem realloc_shrinks_iff (hk : k ≤ 30) (hg : Good k s) {rmem newsize : ℕ} (hlive : (s.live rmem).isSome = true)
    (hsize : newsize < 2 ^ 32) (hpos : 0 < alignUp k newsize) (hle : alignUp k newsize ≤ s.heap.room k rmem) :
    ReallocGives k s.heap rmem newsize ↔ ShrinkFits k s.heap rmem newsize := by
  obtain ⟨hwrap, hnew⟩ := lt_of_alignUp_pos hk hsize hpos
  have h12 := (sizeof_spec hk).1
  obtain ⟨bs, hi, ht⟩ := hg
  obtain ⟨xs, b, ys, n, rfl, -, hb, rfl⟩ := ht.block hlive
  have hs := hi.shape
  have hroom : s.heap.room k (s.heap.heapPtr + total xs + sizeofStructMem k) = b.len - sizeofStructMem k :=
    @Shape.room_eq k s.heap _ hs (total xs, b) (by simp [place])
  have hend := hs.len_le
  rw [hroom] at hle
  have hmem : ¬s.heap.memSizeAligned < alignUp k newsize := by
    rw [Heap.heapEnd] at hend
    omega
  obtain ⟨h', r, hrealloc, hspec⟩ := rtRealloc_spec hk hi hb hwrap hnew
  have hcases := rtRealloc_eq hk hi hb hwrap hnew
  rw [if_neg hmem] at hcases
  by_cases hsame : b.len - sizeofStructMem k = alignUp k newsize
  · rw [if_pos hsame] at hcases
    refine iff_of_true ⟨s.heap, _, hcases, by omega⟩ (Or.inl ?_)
    rw [hroom, hsame]
  · rw [if_neg hsame] at hcases
    by_cases hsplit : SplitsTile k b newsize
    · refine iff_of_true ⟨h', r, hrealloc, fun hnull => ?_⟩ (Or.inr (Or.inl ?_))
      · rcases hspec with ⟨-, -, hnot⟩ | ⟨bs', p, l, rfl, -⟩
        · exact hnot hsplit
        · omega
      · rw [hroom]
        exact hsplit
    · rw [if_neg hsplit] at hcases
      have hmove := @reallocMove_gives_iff k s.heap xs ys b hk n _ (b.len - sizeofStructMem k) hi hb
        (le_request (hi.shape.align_lt hk (not_lt.mp hmem))) (by omega)
      rw [ReallocGives, ShrinkFits, hcases, hmove, hroom]
      constructor
      · exact fun hfit => Or.inr (Or.inr hfit)
      · rintro (heq | hcut | hfit)
        · exact absurd heq.symm hsame
        · exact absurd hcut hsplit
        · exact hfit

end RtThread.Memory.SmallMem

namespace RtThread.Memory.MemHeap

open RtThread.Lib.Tiling RtThread.Lib.Transition RtThread.Lib.Word

variable {k : ℕ} {s : Sys}

/-- `rt_memheap_realloc` returns a block. -/
def ReallocGives (k : ℕ) (h : Memheap) (ptr newsize : ℕ) : Prop :=
  ∃ r h', rtMemheapRealloc k h ptr newsize = some (r, h') ∧ r ≠ 0

theorem realloc_shrinks (hk : k ≤ 30) (hg : Good k s) {ptr newsize : ℕ} (hlive : (s.live ptr).isSome = true)
    (hsize : newsize < 2 ^ 32) (hpos : 0 < alignUp k newsize)
    (hle : alignUp k newsize ≤ memitemSize k s.heap (ptr - memheapSize k)) : ReallocGives k s.heap ptr newsize := by
  obtain ⟨hwrap, hnew⟩ := SmallMem.lt_of_alignUp_pos hk hsize hpos
  have hmini : memheapMinialloc = 12 := rfl
  obtain ⟨bs, fl, hs, hc, hl⟩ := hg
  rw [hl] at hlive
  obtain ⟨xs, b, ys, n, rfl, hb, rfl⟩ := block_of_live hlive
  have hblocks := hs.blocks
  obtain ⟨hlen, hend⟩ := hblocks.bounds
  have hbound := hblocks.bound
  have hroomy := hs.roomy b (by simp) n hb
  have hp : sub 32 (s.heap.startAddr + total xs + memheapSize k) (memheapSize k) = s.heap.startAddr + total xs := by
    rw [sub_of_le (Nat.le_add_left _ _) (by omega), Nat.add_sub_cancel]
  rw [Nat.add_sub_cancel, hblocks.size_eq hk] at hle
  have hreq : requestSize k newsize ≤ b.len - memheapSize k := by
    rw [requestSize]
    split <;> omega
  have hstays : ¬GrowsInPlace k s.heap (s.heap.startAddr + total xs + memheapSize k) newsize := by
    rintro ⟨hlt, -⟩
    rw [hp, hblocks.size_eq hk] at hlt
    omega
  obtain ⟨r, h', hrealloc, -, hnull, -⟩ :=
    resize_spec hk hs hc hb (le_requestSize hwrap) (by omega) fun hgrows => absurd hgrows hstays
  refine ⟨r, h', hrealloc, fun h0 => ?_⟩
  have hfails := (hnull.mp h0).1
  rw [hp, hblocks.size_eq hk] at hfails
  omega

end RtThread.Memory.MemHeap

namespace RtThread.Memory

open RtThread.Lib.Transition RtThread.Lib.Word

/-- In every state of a run `rt_memheap_realloc` makes a block smaller. `rt_realloc` does so exactly when the block
has the aligned size already, or gives back enough for another block, or has another block to move to. -/
theorem shrink_gives_iff {k : ℕ} (hk : k ≤ 30) :
    (∀ (m : Lib.Bytes.Mem) (beginAddr endAddr : ℕ) (h : SmallMem.Heap) (acts : List SmallMem.Act)
      (s : SmallMem.Sys), endAddr < 2 ^ 32 →
      SmallMem.rtSystemHeapInit k m beginAddr endAddr = some h →
      exec (SmallMem.step k) ⟨h, fun _ => none⟩ acts = some s →
      ∀ rmem newsize, (s.live rmem).isSome = true → newsize < 2 ^ 32 → 0 < alignUp k newsize →
        alignUp k newsize ≤ s.heap.room k rmem →
        (SmallMem.ReallocGives k s.heap rmem newsize ↔ SmallMem.ShrinkFits k s.heap rmem newsize)) ∧
    (∀ (h : MemHeap.Memheap) (startAddr size : ℕ) (acts : List MemHeap.Act) (s : MemHeap.Sys), size < 2 ^ 32 →
      startAddr + size ≤ 2 ^ 32 → 2 * MemHeap.memheapSize k ≤ size / 2 ^ k * 2 ^ k →
      (h.freeHeader < startAddr ∨ startAddr + size ≤ h.freeHeader) →
      AllSteps (MemHeap.step k) (MemHeap.SumFits k) ⟨MemHeap.rtMemheapInit k h startAddr size, fun _ => none⟩ acts →
      exec (MemHeap.step k) ⟨MemHeap.rtMemheapInit k h startAddr size, fun _ => none⟩ acts = some s →
      ∀ ptr newsize, (s.live ptr).isSome = true → newsize < 2 ^ 32 → 0 < alignUp k newsize →
        alignUp k newsize ≤ MemHeap.memitemSize k s.heap (ptr - MemHeap.memheapSize k) →
        MemHeap.ReallocGives k s.heap ptr newsize) := by
  constructor
  · intro m beginAddr endAddr h acts s hend hinit hrun rmem newsize hlive hsize hpos hle
    rcases SmallMem.run_reached hk hend hinit hrun with hg | ⟨-, rfl⟩
    · exact SmallMem.realloc_shrinks_iff hk hg hlive hsize hpos hle
    · cases hlive
  · intro h startAddr size acts s hsize hbound hroom hout hfits hrun ptr newsize hlive hnew hpos hle
    exact MemHeap.realloc_shrinks hk (MemHeap.run_good hk hsize hbound hroom hout hfits hrun) hlive hnew hpos hle

theorem shrink_gives_iff_sample :
    (∃ h s, SmallMem.rtSystemHeapInit 2 (fun _ => 0xaa) 0x20000001 0x20000100 = some h ∧
      exec (SmallMem.step 2) ⟨h, fun _ => none⟩ [.malloc 40, .malloc 150] = some s ∧
      SmallMem.ReallocGives 2 s.heap 0x20000010 10) ∧
    ∃ s, exec (MemHeap.step 2) MemHeap.sampleInit [.alloc 40, .alloc 20] = some s ∧
      MemHeap.ReallocGives 2 s.heap 0x20000018 30 := by
  constructor
  · have hrun : ((SmallMem.rtSystemHeapInit 2 (fun _ => 0xaa) 0x20000001 0x20000100).bind fun h =>
        (exec (SmallMem.step 2) ⟨h, fun _ => none⟩ [.malloc 40, .malloc 150]).map fun s =>
          ((s.live 0x20000010).isSome, s.heap.room 2 0x20000010)) = some (true, 40) := by decide +kernel
    simp only [Option.bind_eq_some_iff, Option.map_eq_some_iff, Prod.mk.injEq] at hrun
    obtain ⟨h, hinit, s, hs, hlive, hroom⟩ := hrun
    refine ⟨h, s, hinit, hs, ((shrink_gives_iff (by decide)).1 _ _ _ h _ s (by decide) hinit hs _ 10 hlive
      (by decide) (by decide) (by rw [hroom]; decide)).mpr (Or.inr (Or.inl ?_))⟩
    rw [hroom]
    decide
  · have hrun : ((exec (MemHeap.step 2) MemHeap.sampleInit [.alloc 40, .alloc 20]).map fun s =>
        ((s.live 0x20000018).isSome, MemHeap.memitemSize 2 s.heap (0x20000018 - MemHeap.memheapSize 2))) =
          some (true, 40) := by decide +kernel
    have hfits : AllSteps (MemHeap.step 2) (MemHeap.SumFits 2) MemHeap.sampleInit [.alloc 40, .alloc 20] := by
      decide +kernel
    simp only [Option.map_eq_some_iff, Prod.mk.injEq] at hrun
    obtain ⟨s, hs, hlive, hroom⟩ := hrun
    exact ⟨s, hs, (shrink_gives_iff (by decide)).2 MemHeap.sampleHeap 0x20000000 256 _ s (by decide) (by decide)
      (by decide) (by decide) hfits hs _ 30 hlive (by decide) (by decide) (by rw [hroom]; decide)⟩

/-- A block of 40 bytes is to become one of 32 in a full heap: 8 bytes are too few for another block. -/
theorem shrink_fails_when_full :
    ∃ h s, SmallMem.rtSystemHeapInit 2 (fun _ => 0xaa) 0x20000001 0x20000100 = some h ∧
      exec (SmallMem.step 2) ⟨h, fun _ => none⟩ [.malloc 40, .malloc 150] = some s ∧
      (s.live 0x20000010).isSome = true ∧ 0 < alignUp 2 30 ∧ alignUp 2 30 ≤ s.heap.room 2 0x20000010 ∧
      ¬SmallMem.ReallocGives 2 s.heap 0x20000010 30 := by
  have hrun : ((SmallMem.rtSystemHeapInit 2 (fun _ => 0xaa) 0x20000001 0x20000100).bind fun h =>
      (exec (SmallMem.step 2) ⟨h, fun _ => none⟩ [.malloc 40, .malloc 150]).bind fun s =>
        (SmallMem.rtRealloc 2 s.heap 0x20000010 30).map fun x =>
          ((s.live 0x20000010).isSome, s.heap.room 2 0x20000010, x.2)) = some (true, 40, 0) := by decide +kernel
  simp only [Option.bind_eq_some_iff, Option.map_eq_some_iff, Prod.mk.injEq] at hrun
  obtain ⟨h, hinit, s, hs, ⟨h', r⟩, hrealloc, hlive, hroom, hr⟩ := hrun
  refine ⟨h, s, hinit, hs, hlive, by decide, by rw [hroom]; decide, ?_⟩
  rintro ⟨h₁, r₁, hrealloc₁, hne⟩
  rw [hrealloc] at hrealloc₁
  cases hrealloc₁
  exact hne hr

end RtThread.Memory
