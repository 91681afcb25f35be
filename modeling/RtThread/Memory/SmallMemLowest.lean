import RtThread.Memory.SmallMemRuns

/-!
# `lfree` and the lowest unused block

`rt_malloc` moves `lfree` on, `rt_free` moves it back, and `plug_holes` moves it when it joins blocks. `rt_realloc` does
not look at it when it splits a block in place, and the block that it splits off may be the lowest unused one.
-/

namespace RtThread.Memory.SmallMem

open RtThread.Lib.Bytes RtThread.Lib.Word RtThread.Lib.Tiling RtThread.Lib.Transition

variable {k : ℕ}

/-- The offset of the block that `rmem` points to. -/
def Heap.block (k : ℕ) (h : Heap) (rmem : ℕ) : ℕ := rmem - h.heapPtr - sizeofStructMem k

/-- `rt_realloc` splits the block in place (`mem.c:471`). -/
def SplitsInPlace (k : ℕ) (h : Heap) (rmem newsize : ℕ) : Prop :=
  rmem ≠ 0 ∧ newsize ≠ 0 ∧ alignUp k newsize + sizeofStructMem k + minSize < dataSize k h.mem (h.block k rmem)

instance (h : Heap) (rmem newsize : ℕ) : Decidable (SplitsInPlace k h rmem newsize) :=
  inferInstanceAs (Decidable (_ ∧ _))

/-- A block that is split in place has an unused block before it, or directly behind it. -/
def KeepsLowest (k : ℕ) (s : Sys) : Act → Prop
  | .realloc rmem newsize => SplitsInPlace k s.heap rmem newsize → s.heap.lfree < s.heap.block k rmem ∨
      s.heap.lfree = nextOf s.heap.mem (s.heap.block k rmem) ∧ s.heap.lfree ≠ s.heap.heapEnd k
  | _ => True

instance (s : Sys) : (a : Act) → Decidable (KeepsLowest k s a)
  | .realloc _ _ => inferInstanceAs (Decidable (_ → _))
  | .malloc _ | .calloc _ _ | .free _ | .write _ _ _ => inferInstanceAs (Decidable True)

variable {m : Mem} {h : Heap} {s s' : Sys} {bs xs ys : List (Tile ℕ)} {b : Tile ℕ}

theorem block_eq (h : Heap) (p : ℕ) : h.block k (h.heapPtr + p + sizeofStructMem k) = p := by
  rw [Heap.block]
  omega

theorem malloc_low (hk : k ≤ 30) (hi : Inv k h bs) (hlow : Low k h bs) {size r : ℕ} {h' : Heap}
    (hmalloc : rtMalloc k h size = some (h', r)) : LowestFree k h' := by
  obtain ⟨h₁, r₁, hr, hspec⟩ := rtMalloc_spec hk hi (Nat.zero_le (request k size))
  cases hmalloc.symm.trans hr
  rcases hspec with ⟨-, rfl, -⟩ | ⟨bs', p, l, -, -, -, hi', -, -, hlow'⟩
  · exact (lowestFree_iff hk hi.shape).mpr hlow
  · exact (lowestFree_iff hk hi'.shape).mpr (hlow' hlow)

theorem free_low (hk : k ≤ 30) (hi : Inv k s.heap bs) (ht : Tracks k s bs) (hlow : Low k s.heap bs) {rmem : ℕ} {h' : Heap}
    (hr : rmem = 0 ∨ (s.live rmem).isSome = true) (hfree : rtFree k s.heap rmem = some h') : LowestFree k h' := by
  rcases hr with rfl | hr
  · cases hfree
    exact (lowestFree_iff hk hi.shape).mpr hlow
  · obtain ⟨xs, b, ys, n, rfl, -, hb, rfl⟩ := ht.block hr
    obtain ⟨h₁, bs', hfree₁, hi', -, -, hlow'⟩ := rtFree_spec hk hi hb
    cases hfree.symm.trans hfree₁
    exact (lowestFree_iff hk hi'.shape).mpr (hlow' hlow)

theorem resize_low_iff (hk : k ≤ 30) (hi : Inv k h (xs ++ [b] ++ ys)) {n newsize r : ℕ} {h' : Heap} (hb : b.label = some n)
    (hlow : Low k h (xs ++ [b] ++ ys)) (hsize : newsize + (2 ^ k - 1) < 2 ^ 32) (hpos : newsize ≠ 0)
    (hrealloc : rtRealloc k h (h.heapPtr + total xs + sizeofStructMem k) newsize = some (h', r)) :
    LowestFree k h' ↔ (SplitsInPlace k h (h.heapPtr + total xs + sizeofStructMem k) newsize →
      h.lfree < total xs ∨ h.lfree = total xs + b.len ∧ h.lfree ≠ h.heapEnd k) := by
  have h12 := (sizeof_spec hk).1
  have hsplits : SplitsInPlace k h (h.heapPtr + total xs + sizeofStructMem k) newsize ↔ SplitsTile k b newsize := by
    have hs := hi.shape
    rw [List.append_assoc] at hs
    rw [SplitsInPlace, block_eq, SplitsTile, dataSize_eq hs]
    exact ⟨fun hand => hand.2.2, fun hlt => ⟨by omega, hpos, hlt⟩⟩
  obtain ⟨h₁, r₁, hr, hspec⟩ := rtRealloc_spec hk hi hb hsize (Nat.pos_of_ne_zero hpos)
  cases hrealloc.symm.trans hr
  rw [hsplits]
  rcases hspec with ⟨-, rfl, hwhole⟩ | ⟨bs', p, l, -, hi', -, -, hlow'⟩
  · exact iff_of_true ((lowestFree_iff hk hi.shape).mpr hlow) fun hsplit => absurd hsplit hwhole
  · rw [lowestFree_iff hk hi'.shape]
    exact hlow' hlow

/-- A call leaves `lfree` the lowest unused block exactly when it is none that splits off a lower one. -/
theorem step_low_iff (hk : k ≤ 30) (hg : Good k s) (hlow : LowestFree k s.heap) {a : Act}
    (hstep : step k s a = some s') : LowestFree k s'.heap ↔ KeepsLowest k s a := by
  obtain ⟨bs, hi, ht⟩ := hg
  rw [lowestFree_iff hk hi.shape] at hlow
  obtain ⟨ha, hcall⟩ := allowed_of_step hstep
  cases a with
  | malloc size =>
    obtain ⟨⟨h', r⟩, hmalloc, rfl⟩ := Option.map_eq_some_iff.mp hcall
    exact iff_of_true (malloc_low hk hi hlow hmalloc) trivial
  | calloc count size =>
    obtain ⟨⟨h', r⟩, hcalloc, rfl⟩ := Option.map_eq_some_iff.mp hcall
    obtain ⟨h₁, r₁, hr, hspec⟩ := rtCalloc_spec hk hi ha
    cases hcalloc.symm.trans hr
    refine iff_of_true ?_ trivial
    rcases hspec with ⟨-, rfl⟩ | ⟨bs', p, l, -, hi', -, -, hlow'⟩
    · exact (lowestFree_iff hk hi.shape).mpr hlow
    · exact (lowestFree_iff hk hi'.shape).mpr (hlow' hlow)
  | free rmem =>
    obtain ⟨h', hfree, rfl⟩ := Option.map_eq_some_iff.mp hcall
    exact iff_of_true (free_low hk hi ht hlow ha hfree) trivial
  | write rmem i v =>
    cases hcall
    refine iff_of_true ?_ trivial
    obtain ⟨n, hn⟩ : ∃ n, s.live rmem = some n := by
      cases hlive : s.live rmem with
      | none =>
        rw [Act.Allowed, hlive] at ha
        exact absurd ha (Nat.not_lt_zero i)
      | some n => exact ⟨n, rfl⟩
    obtain ⟨xs, b, ys, n', rfl, hn', hb, hrmem⟩ := ht.block (by rw [hn]; rfl)
    have hfits := (hi.fits (total xs, b) (by rw [held_middle_of_some xs ys hb]; simp)).2 n' hb
    have hin : i < n' := by
      have hlt : i < (s.live rmem).getD 0 := ha
      rwa [hn', Option.getD_some] at hlt
    have hw : Inv k { s.heap with mem := Function.update s.heap.mem (rmem - s.heap.heapPtr + i) v } (xs ++ [b] ++ ys) :=
      hi.write hk fun x hx => (Function.update_of_ne (by simp only at hfits; omega) _ _).symm
    exact (lowestFree_iff hk hw.shape).mpr hlow
  | realloc rmem newsize =>
    obtain ⟨hr, hsize⟩ := ha
    simp only [call] at hcall
    obtain ⟨⟨h', r⟩, hrealloc, hs'⟩ := Option.map_eq_some_iff.mp hcall
    have hheap : s'.heap = h' := by
      rw [← hs']
      split <;> rfl
    rw [hheap, KeepsLowest]
    by_cases hzero : newsize = 0
    · refine iff_of_true ?_ fun hsplit => absurd hzero hsplit.2.1
      have halign : alignUp k newsize = 0 := by
        rw [hzero] at hsize ⊢
        exact Nat.eq_zero_of_dvd_of_lt (dvd_alignUp k 0) (by have := (alignUp_spec hsize).2; omega)
      simp only [rtRealloc, halign] at hrealloc
      rw [if_neg (by omega), if_pos trivial] at hrealloc
      obtain ⟨h₁, hfree, hpair⟩ := Option.map_eq_some_iff.mp hrealloc
      cases hpair
      exact free_low hk hi ht hlow hr hfree
    · by_cases hnull : rmem = 0
      · refine iff_of_true ?_ fun hsplit => absurd hnull hsplit.1
        simp only [rtRealloc] at hrealloc
        split at hrealloc
        · cases hrealloc
          exact (lowestFree_iff hk hi.shape).mpr hlow
        · have hup := (alignUp_spec hsize).1
          rw [if_neg (by omega)] at hrealloc
          exact malloc_low hk hi hlow hrealloc
      · obtain ⟨xs, b, ys, n, rfl, -, hb, rfl⟩ := ht.block (hr.resolve_left hnull)
        rw [block_eq, hi.shape.middle.2.1.next]
        exact resize_low_iff hk hi hb hlow hsize hzero hrealloc

theorem Fresh.unused_eq (hk : k ≤ 30) (hf : Fresh k h) : h.unused k = [0] := by
  have h12 := (sizeof_spec hk).1
  have hend : h.heapEnd k ≠ 0 := by
    rw [Heap.heapEnd]
    omega
  have hrest : ∀ n, offsetsFrom k h n (h.heapEnd k) = [] := by
    intro n
    cases n with
    | zero => rfl
    | succ n => rw [offsetsFrom, if_pos rfl]
  rw [Heap.unused, Heap.offsets, Heap.fuel, offsetsFrom, if_neg hend.symm, hf.first.next, hrest]
  simp [hf.first.used]

theorem Fresh.lowestFree (hk : k ≤ 30) (hf : Fresh k h) : LowestFree k h := by
  refine ⟨Or.inl ?_, fun p _ => ?_⟩
  · rw [hf.unused_eq hk, hf.lfree]
    exact List.mem_cons_self
  · rw [hf.lfree]
    exact Nat.zero_le p

theorem reached_low_iff (hk : k ≤ 30) (hf : Fresh k h) (hr : Reached k h s) (hlow : LowestFree k s.heap) {a : Act}
    (hstep : step k s a = some s') : LowestFree k s'.heap ↔ KeepsLowest k s a := by
  rcases hr with hg | ⟨htiny, rfl⟩
  · exact step_low_iff hk hg hlow hstep
  · rw [hf.tiny_step hk htiny hstep]
    refine iff_of_true hlow ?_
    cases a with
    | realloc rmem newsize =>
      have hnull := (allowed_of_step hstep).1.1
      intro hsplit
      exact absurd (hnull.resolve_right (by simp)) hsplit.1
    | _ => trivial

/-- `lfree` is the lowest unused block in every state of a run exactly when every block that the run splits in place has
an unused block before it or directly behind it. -/
theorem lfree_lowest_iff (hk : k ≤ 30) {beginAddr endAddr : ℕ} (hend : endAddr < 2 ^ 32)
    (hinit : rtSystemHeapInit k m beginAddr endAddr = some h) (acts : List Act) :
    AllStates (step k) (fun s => LowestFree k s.heap) ⟨h, fun _ => none⟩ acts ↔
      AllSteps (step k) (KeepsLowest k) ⟨h, fun _ => none⟩ acts := by
  have hf := init_fresh hk hend hinit
  exact allStates_iff_allSteps (Reached k h) (fun s => LowestFree k s.heap) (KeepsLowest k)
    (fun _ _ _ hr hstep => hr.step hk hf hstep) (fun _ _ _ hr hlow hstep => reached_low_iff hk hf hr hlow hstep) acts
    (init_reached hk hend hinit) (hf.lowestFree hk)

theorem lfree_lowest_iff_sample : ∃ h, rtSystemHeapInit 2 (fun _ => 0xaa) 0x20000001 0x20000100 = some h ∧
    AllStates (step 2) (fun s => LowestFree 2 s.heap) ⟨h, fun _ => none⟩
      [.malloc 20, .malloc 80, .free 0x20000010, .realloc 0x20000030 40] := by
  have hsteps : ((rtSystemHeapInit 2 (fun _ => 0xaa) 0x20000001 0x20000100).map fun h =>
      decide (AllSteps (step 2) (KeepsLowest 2) ⟨h, fun _ => none⟩
        [.malloc 20, .malloc 80, .free 0x20000010, .realloc 0x20000030 40])) = some true := by decide +kernel
  obtain ⟨h, hinit, hcond⟩ := Option.map_eq_some_iff.mp hsteps
  exact ⟨h, hinit, (lfree_lowest_iff (by decide) (by decide) hinit _).mpr (of_decide_eq_true hcond)⟩

/-- The first of two blocks is made shorter in place: the free block behind it lies before `lfree`. -/
theorem realloc_leaves_lfree : ∃ h s, rtSystemHeapInit 2 (fun _ => 0xaa) 0x20000001 0x20000100 = some h ∧
    exec (step 2) ⟨h, fun _ => none⟩ [.malloc 80, .malloc 20, .realloc 0x20000010 20] = some s ∧
      ¬LowestFree 2 s.heap := by
  have hrun : ((rtSystemHeapInit 2 (fun _ => 0xaa) 0x20000001 0x20000100).bind fun h =>
      (exec (step 2) ⟨h, fun _ => none⟩ [.malloc 80, .malloc 20, .realloc 0x20000010 20]).map fun s =>
        (s.heap.lfree, s.heap.unused 2)) = some (124, [32, 124]) := by decide +kernel
  simp only [Option.bind_eq_some_iff, Option.map_eq_some_iff, Prod.mk.injEq] at hrun
  obtain ⟨h, hinit, s, hs, hlfree, hunused⟩ := hrun
  refine ⟨h, s, hinit, hs, fun hlow => ?_⟩
  have hle := hlow.lowest 32 (by rw [hunused]; decide)
  omega

end RtThread.Memory.SmallMem
