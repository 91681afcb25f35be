import RtThread.Memory.SmallMemRuns

/-!
# Whether the search of `rt_malloc` ends (`mem.c:272-311`, `mem.c:380-387`)

The sentinel at `heap_end` is its own next block. The search stays before it as long as the size that is looked
for is not larger than the heap.
-/

namespace RtThread.Memory.SmallMem

open RtThread.Lib.Tiling RtThread.Lib.Transition RtThread.Lib.Word

variable (k : ℕ)

/-- The blocks that the search looks at. -/
def inspected (h : Heap) (size : ℕ) : ℕ → ℕ → List ℕ
  | 0, _ => []
  | fuel + 1, p =>
    if p < sub 32 h.memSizeAligned size then
      p :: if usedOf h.mem p = 0 ∧ size ≤ dataSize k h.mem p then [] else inspected h size fuel (nextOf h.mem p)
    else []

/-- The loops of `rt_malloc`, if it comes to them, end, and the search does not look at the sentinel. -/
def SearchEnds (h : Heap) (size : ℕ) : Prop :=
  size ≠ 0 → alignUp k size ≤ h.memSizeAligned → ∃ fuel found,
    searchLoop k h (request k size) fuel h.lfree = some found ∧
      h.heapEnd k ∉ inspected k h (request k size) fuel h.lfree ∧
      ∀ p, found = some p → ∃ fuel q, lfreeLoop k (takeBlock k h p (request k size)) fuel h.lfree = some q

/-- A call that its caller may make; `rt_malloc` may be called with every size. -/
def callStep (s : Sys) : Act → Option Sys
  | .malloc size => (rtMalloc k s.heap size).map fun r => .hand s.live r (min size (request k size))
  | a => step k s a

variable {k} {m : Lib.Bytes.Mem} {h : Heap} {s : Sys} {bs : List (Tile ℕ)}

theorem lt_of_mem_inspected {size fuel p q : ℕ} (hq : q ∈ inspected k h size fuel p) :
    q < sub 32 h.memSizeAligned size := by
  induction fuel generalizing p with
  | zero => cases hq
  | succ fuel ih =>
    rw [inspected] at hq
    split at hq
    · rename_i hlt
      rcases List.mem_cons.mp hq with rfl | hrest
      · exact hlt
      · split at hrest
        · cases hrest
        · exact ih hrest
    · cases hq

theorem Inv.searchEnds (hk : k ≤ 30) (hi : Inv k h bs) (size : ℕ) : SearchEnds k h size := by
  intro hpos hle
  have hszle := request_le hi.shape.minSize_le hle
  have hbound := hi.shape.bound
  obtain ⟨xs, ys, rfl, hlfree⟩ := hi.shape.lfree_split
  have hsearch := searchLoop_eq hszle hi.shape (Nat.lt_succ_self ys.length)
  rw [← hlfree] at hsearch
  refine ⟨_, _, hsearch, fun hmem => ?_, fun p hp => ?_⟩
  · -- the guard fails at the sentinel
    have hlt := lt_of_mem_inspected hmem
    rw [Heap.heapEnd] at hlt hbound
    rw [sub_of_le hszle (by omega)] at hlt
    omega
  · have hfit : firstFit k h (request k size) = some p := by
      rw [firstFit_eq hk hi.shape hlfree, ← hlfree]
      exact hp
    obtain ⟨us, b, vs, hbs, rfl, hb, hlen⟩ := firstFit_tile hk hi.shape hfit
    rw [hbs] at hi
    obtain ⟨l, rest, -, -, -, hs', -, -, -, hlfree'⟩ :=
      takeBlock_spec hk hi.shape hlen (dvd_request k size) (hi.usedMem_lt hb) 0
    obtain ⟨xs', ys', hbs', htotal⟩ := hs'.lfree_split
    rw [hbs'] at hs'
    have hloop := lfreeLoop_eq hk hs' (Nat.lt_succ_self ys'.length)
    rw [← htotal, hlfree'] at hloop
    exact ⟨_, _, hloop⟩

theorem Reached.callStep (hk : k ≤ 30) (hf : Fresh k h) (hr : Reached k h s) {s' : Sys} {a : Act}
    (hstep : SmallMem.callStep k s a = some s') : Reached k h s' := by
  cases a with
  | malloc size =>
    obtain ⟨⟨h', r⟩, hmalloc, rfl⟩ := Option.map_eq_some_iff.mp hstep
    rcases hr with ⟨bs, hi, ht⟩ | ⟨htiny, rfl⟩
    · obtain ⟨h₁, r₁, hr₁, hspec⟩ := rtMalloc_spec hk hi (min_le_right size (request k size))
      obtain ⟨rfl, rfl⟩ := Prod.mk.inj (Option.some.inj (hr₁.symm.trans hmalloc))
      refine Or.inl (hand_good hk hi ht (hspec.imp (fun hnull => ⟨hnull.1, hnull.2.1⟩) ?_))
      rintro ⟨bs', p, l, hp, -, -, hi', hptr, hadds, -⟩
      exact ⟨bs', p, l, hp, hi', hptr, hadds⟩
    · obtain ⟨rfl, rfl, -⟩ := hf.tiny_malloc hk htiny hmalloc
      exact Or.inr ⟨htiny, rfl⟩
  | calloc count size => exact hr.step hk hf hstep
  | realloc rmem newsize => exact hr.step hk hf hstep
  | free rmem => exact hr.step hk hf hstep
  | write rmem i b => exact hr.step hk hf hstep

/-- In every state that calls lead to, the loops of `rt_malloc` end exactly if it does not come to them or the
heap has room for a block of the least size. -/
theorem search_ends_iff (hk : k ≤ 30) {beginAddr endAddr : ℕ} (hend : endAddr < 2 ^ 32)
    (hinit : rtSystemHeapInit k m beginAddr endAddr = some h) {acts : List Act}
    (hrun : exec (callStep k) ⟨h, fun _ => none⟩ acts = some s) (size : ℕ) :
    SearchEnds k s.heap size ↔
      size = 0 ∨ s.heap.memSizeAligned < alignUp k size ∨ minSizeAligned k ≤ s.heap.memSizeAligned := by
  have hf := init_fresh hk hend hinit
  have hr : Reached k h s :=
    exec_inv (Reached k h) (fun _ _ _ hs hstep => hs.callStep hk hf hstep) (init_reached hk hend hinit) hrun
  rcases hr with ⟨bs, hi, -⟩ | ⟨htiny, rfl⟩
  · exact iff_of_true (hi.searchEnds hk size) (Or.inr (Or.inr hi.shape.minSize_le))
  · rw [← or_assoc, or_iff_left (not_le.mpr htiny)]
    constructor
    · intro hends
      by_contra hnot
      obtain ⟨hpos, hle⟩ := not_or.mp hnot
      obtain ⟨fuel, found, hsearch, -⟩ := hends hpos (not_lt.mp hle)
      rw [request, if_pos (lt_of_le_of_lt (not_lt.mp hle) htiny), hf.lfree, hf.search_stuck hk htiny] at hsearch
      cases hsearch
    · rintro (rfl | hlt) hpos hle
      · exact absurd rfl hpos
      · exact absurd hle (not_le.mpr hlt)

theorem search_ends_iff_sample :
    ∃ h s, rtSystemHeapInit 2 (fun _ => 0xaa) 0x20000001 0x20000100 = some h ∧
      exec (callStep 2) ⟨h, fun _ => none⟩ [.malloc 20, .malloc 0xffffffff, .free 0x20000010] = some s ∧
        SearchEnds 2 s.heap 40 := by
  have hrun : ((rtSystemHeapInit 2 (fun _ => 0xaa) 0x20000001 0x20000100).bind fun h =>
      (exec (callStep 2) ⟨h, fun _ => none⟩ [.malloc 20, .malloc 0xffffffff, .free 0x20000010]).map fun s =>
        s.heap.memSizeAligned) = some 228 := by decide +kernel
  simp only [Option.bind_eq_some_iff, Option.map_eq_some_iff] at hrun
  obtain ⟨h, hinit, s, hs, hsize⟩ := hrun
  refine ⟨h, s, hinit, hs, (search_ends_iff (by decide) (by decide) hinit hs 40).mpr (Or.inr (Or.inr ?_))⟩
  rw [hsize]
  decide

/-- A heap of four bytes is accepted, and a request of four bytes is searched for without an end. -/
theorem tiny_heap_search :
    ∃ h, rtSystemHeapInit 2 (fun _ => 0xaa) 0x20000000 0x2000001c = some h ∧ ¬SearchEnds 2 h 4 := by
  have hrun : (rtSystemHeapInit 2 (fun _ => 0xaa) 0x20000000 0x2000001c).map Heap.memSizeAligned = some 4 := by decide
  obtain ⟨h, hinit, hsize⟩ := Option.map_eq_some_iff.mp hrun
  have hf := init_fresh (by decide) (by decide) hinit
  have htiny : h.memSizeAligned < minSizeAligned 2 := by rw [hsize]; decide
  refine ⟨h, hinit, fun hends => ?_⟩
  obtain ⟨fuel, found, hsearch, -⟩ := hends (by decide) (by rw [hsize]; decide)
  have hrequest : request 2 4 = minSizeAligned 2 := by decide
  rw [hrequest, hf.lfree, hf.search_stuck (by decide) htiny] at hsearch
  cases hsearch

end RtThread.Memory.SmallMem
