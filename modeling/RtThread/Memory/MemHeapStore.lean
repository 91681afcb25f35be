import RtThread.Memory.ReallocKeeps

/-!
# The memory heap as its clients see it

The calls return, the live blocks are apart from each other, and each keeps its data until it is freed.
-/

namespace RtThread.Memory.MemHeap

open RtThread.Lib.Bytes RtThread.Lib.Tiling RtThread.Lib.Transition RtThread.Lib.Word

variable {k : ℕ} {s s' : Pool} {live : ℕ → Option ℕ} {q r n size : ℕ}

/-- The blocks in use are those of `live`, with at least these sizes. -/
structure Owned (k : ℕ) (s : Pool) (live : ℕ → Option ℕ) : Prop where
  good : Good k ⟨s.heap, live⟩
  outside : HeaderOutside s.heap

/-- The blocks of `live` keep their data, apart from the one at `r`. -/
def KeepsOthers (live : ℕ → Option ℕ) (s s' : Pool) (r : ℕ) : Prop :=
  ∀ q n i, live q = some n → q ≠ r → i < n → s'.mem (q + i) = s.mem (q + i)

theorem KeepsOthers.of_mem (h : s'.mem = s.mem) : KeepsOthers live s s' r := fun _ _ _ _ _ _ => by rw [h]

theorem Pool.rtMemheapAlloc_region {x : ℕ × Pool} (hrun : s.rtMemheapAlloc k size = some x) :
    x.2.heap.region = s.heap.region := by
  have hheap := s.rtMemheapAlloc_heap (k := k) size
  rw [hrun, Option.map_some] at hheap
  exact MemHeap.rtMemheapAlloc_region hheap.symm

theorem Pool.rtMemheapFree_region (hrun : s.rtMemheapFree k q = some s') : s'.heap.region = s.heap.region := by
  have hheap := s.rtMemheapFree_heap (k := k) q
  rw [hrun, Option.map_some] at hheap
  exact MemHeap.rtMemheapFree_region hheap.symm

theorem Pool.rtMemheapRealloc_region {x : ℕ × Pool} (hrun : s.rtMemheapRealloc k q size = some x) :
    x.2.heap.region = s.heap.region := by
  have hheap := s.rtMemheapRealloc_heap (k := k) q size
  rw [hrun, Option.map_some] at hheap
  exact MemHeap.rtMemheapRealloc_region hheap.symm

theorem held_of_live {bs : List (Tile ℕ)} {fl : List ℕ} (hs : Shape k s.heap bs fl)
    (hq : liveOf k (labelAt s.heap.startAddr bs) q = some n) :
    ∃ x ∈ held s.heap.startAddr bs, q = x.1 + memheapSize k ∧ memheapSize k + n ≤ x.2.len ∧
      ∀ i < n, q + i ∈ dataRange k s.heap x.1 := by
  obtain ⟨p, rfl, hp⟩ := liveOf_eq_some hq
  obtain ⟨b, hb, hlabel⟩ := mem_held_of_labelAt hp
  have hplace := (List.mem_filter.mp hb).1
  have hnext := hs.blocks.next_place hplace
  obtain ⟨xs, ys, rfl, -⟩ := exists_append_of_mem_place hplace
  have hroomy := hs.roomy b (by simp) n hlabel
  refine ⟨(p, b), hb, rfl, by simp only; omega, fun i hi => ⟨Nat.le_add_right _ _, ?_⟩⟩
  rw [hnext]
  simp only
  omega

theorem Spares.keeps {bs : List (Tile ℕ)} {fl : List ℕ} (hs : Shape k s.heap bs fl)
    (hlive : live = liveOf k (labelAt s.heap.startAddr bs))
    (hspares : ∀ x ∈ held s.heap.startAddr bs, x.1 + memheapSize k ≠ r → Spares k s s' x.1) :
    KeepsOthers live s s' r := by
  intro q n i hq hne hi
  rw [hlive] at hq
  obtain ⟨x, hx, rfl, -, hdata⟩ := held_of_live hs hq
  exact (hspares x hx hne).2 (hdata i hi)

theorem Owned.apart (ho : Owned k s live) {q' n' : ℕ} (hq : live q = some n) (hq' : live q' = some n') (hne : q ≠ q') :
    q + n ≤ q' ∨ q' + n' ≤ q := by
  obtain ⟨bs, fl, hs, -, hlive⟩ := ho.good
  simp only at hs hlive
  rw [hlive] at hq hq'
  obtain ⟨x, hx, rfl, hlen, -⟩ := held_of_live hs hq
  obtain ⟨y, hy, rfl, hlen', -⟩ := held_of_live hs hq'
  have hapart := place_disjoint (List.mem_filter.mp hx).1 (List.mem_filter.mp hy).1 fun he => hne (by rw [he])
  omega

theorem Owned.bounds (hk : k ≤ 30) (ho : Owned k s live) (hq : live q = some n) :
    0 < q ∧ s.heap.startAddr ≤ q ∧ q + n ≤ s.heap.startAddr + s.heap.poolSize := by
  have hH := (memheapSize_spec hk).1
  obtain ⟨bs, fl, hs, -, hlive⟩ := ho.good
  simp only at hs hlive
  rw [hlive] at hq
  obtain ⟨x, hx, rfl, hlen, -⟩ := held_of_live hs hq
  have hrange := mem_place (List.mem_filter.mp hx).1
  have htotal := hs.blocks.total_eq
  omega

theorem Owned.alloc (hk : k ≤ 30) (ho : Owned k s live) (hsize : size + (2 ^ k - 1) < 2 ^ 32) :
    ∃ r s', s.rtMemheapAlloc k size = some (r, s') ∧ Owned k s' (hand live r size) ∧ (r ≠ 0 → live r = none) ∧
      KeepsOthers live s s' 0 := by
  obtain ⟨r, h', halloc, hgood⟩ := alloc_good hk ho.good hsize le_rfl
  obtain ⟨bs, fl, hs, hc, hlive⟩ := ho.good
  have hheap := s.rtMemheapAlloc_heap (k := k) size
  rw [halloc] at hheap
  obtain ⟨⟨r₁, s'⟩, hrun, hpair⟩ := Option.map_eq_some_iff.mp hheap
  obtain ⟨rfl, rfl⟩ := Prod.mk.inj hpair
  refine ⟨r₁, s', hrun, ⟨hgood, ho.outside.of_region (Pool.rtMemheapAlloc_region hrun)⟩, fun hne => ?_, ?_⟩
  · obtain ⟨r₂, h₂, halloc₂, hspec⟩ := rtMemheapAlloc_spec hk hs hc (le_requestSize hsize)
    cases halloc.symm.trans halloc₂
    obtain ⟨hnull, -⟩ | ⟨p, hp, -, hnew, -⟩ := hspec
    · exact absurd hnull hne
    · simp only at hlive hp
      rw [hlive, hp, liveOf_add]
      exact hnew
  · exact Spares.keeps hs hlive fun x hx _ => (rtMemheapAlloc_data hk hs ho.outside hrun).2 x hx

theorem Owned.free (hk : k ≤ 30) (ho : Owned k s live) (hlive : live q = some n) :
    ∃ s', s.rtMemheapFree k q = some s' ∧ Owned k s' (Function.update live q none) ∧ KeepsOthers live s s' q := by
  have hptr : q = 0 ∨ (live q).isSome = true := Or.inr (Option.isSome_of_eq_some hlive)
  obtain ⟨h', hfree, hgood⟩ := free_good hk ho.good hptr
  have hheap := s.rtMemheapFree_heap (k := k) q
  rw [hfree] at hheap
  obtain ⟨s', hrun, rfl⟩ := Option.map_eq_some_iff.mp hheap
  refine ⟨s', hrun, ⟨hgood, ho.outside.of_region (Pool.rtMemheapFree_region hrun)⟩, ?_⟩
  obtain ⟨bs, fl, hs, hc, hl⟩ := ho.good
  simp only at hs hl
  rw [hl] at hlive
  obtain ⟨xs, b, ys, m, rfl, -, rfl⟩ := block_of_live (Option.isSome_of_eq_some hlive)
  refine Spares.keeps hs hl fun x hx hne => rtMemheapFree_data hk hs ho.outside hrun hx fun he => hne ?_
  rw [he]

theorem sumFits_of_lt {sys : Sys} (h : size + 2 ^ k + memheapMinialloc < 2 ^ 32) : SumFits k sys (.realloc q size) := by
  have hpos := Nat.two_pow_pos k
  intro _ _
  have hup := (@alignUp_spec k size (by omega)).2
  rw [memheapMinialloc] at h
  rw [requestSize, memheapMinialloc]
  split <;> omega

/-- What a client of `rt_memheap_realloc` gets. -/
structure Reallocated (k : ℕ) (live : ℕ → Option ℕ) (s s' : Pool) (q size r : ℕ) : Prop where
  owned : Owned k s' (if r = 0 then live else Function.update (Function.update live q none) r (some size))
  failed : r = 0 → s'.mem = s.mem
  fresh : r ≠ 0 → r ≠ q → live r = none
  data : r ≠ 0 → ∀ n, live q = some n → ∀ i < min n size, s'.mem (r + i) = s.mem (q + i)
  others : r ≠ 0 → KeepsOthers live s s' q

theorem Owned.realloc (hk : k ≤ 30) (ho : Owned k s live) (hq : q = 0 ∨ (live q).isSome = true) (hpos : 0 < size)
    (hsize : size + (2 ^ k - 1) < 2 ^ 32) (hfits : SumFits k ⟨s.heap, live⟩ (.realloc q size)) :
    ∃ r s', s.rtMemheapRealloc k q size = some (r, s') ∧ Reallocated k live s s' q size r := by
  have hne : size ≠ 0 := Nat.ne_of_gt hpos
  obtain ⟨sys, hstep, hgood⟩ := step_good hk ho.good (a := .realloc q size) ⟨hq, hsize⟩ hfits
  obtain ⟨⟨r, h'⟩, hrealloc, hsys⟩ := Option.map_eq_some_iff.mp (allowed_of_step hstep).2
  have hheap := s.rtMemheapRealloc_heap (k := k) q size
  rw [hrealloc] at hheap
  obtain ⟨⟨r₁, s'⟩, hrun, hpair⟩ := Option.map_eq_some_iff.mp hheap
  obtain ⟨rfl, rfl⟩ := Prod.mk.inj hpair
  have howned : Owned k s' (if r₁ = 0 then live else Function.update (Function.update live q none) r₁ (some size)) := by
    refine ⟨?_, ho.outside.of_region (Pool.rtMemheapRealloc_region hrun)⟩
    rw [← hsys] at hgood
    by_cases hr : r₁ = 0
    · rw [if_pos ⟨hr, hne⟩] at hgood
      rw [if_pos hr]
      exact hgood
    · rw [if_neg fun h => hr h.1, hand, if_neg hr] at hgood
      rw [if_neg hr]
      exact hgood
  refine ⟨r₁, s', hrun, ?_⟩
  by_cases hnull : q = 0
  · -- a new block
    subst hnull
    obtain ⟨bs, fl, hs, hc, hl⟩ := ho.good
    simp only at hs hl
    have halloc : s.rtMemheapAlloc k (requestSize k size) = some (r₁, s') := by
      rw [Pool.rtMemheapRealloc, if_neg hne, if_pos rfl] at hrun
      exact hrun
    have hreq := (requestSize_spec hk hsize).2
    obtain ⟨r₂, s₂, halloc₂, -, hfresh, hkeeps⟩ := ho.alloc hk hreq
    cases halloc.symm.trans halloc₂
    have hzero : live 0 = none := by rw [hl, liveOf_null hk]
    exact {
      owned := howned
      failed := (rtMemheapAlloc_data hk hs ho.outside halloc).1
      fresh := fun h _ => hfresh h
      data := fun _ n hn => by
        rw [hzero] at hn
        cases hn
      others := fun _ => hkeeps }
  · have hlive := hq.resolve_left hnull
    obtain ⟨r₂, s₂, hrun₂, hfailed, hkept⟩ := realloc_keeps hk ho.good ho.outside hlive hsize hpos hfits s.mem
    cases hrun.symm.trans hrun₂
    obtain ⟨bs, fl, hs, hc, hl⟩ := ho.good
    simp only at hs hl
    exact {
      owned := howned
      failed := fun h => by rw [hfailed h]
      fresh := fun h hne' => by
        by_contra hsome
        exact ((hkept h).2 _ hne' (Option.isSome_iff_ne_none.mpr hsome)).1 rfl
      data := fun h n hn i hi => by
        refine (hkept h).1 i ?_
        rw [hl] at hn
        obtain ⟨x, hx, rfl, hlen, -⟩ := held_of_live hs hn
        obtain ⟨xs, ys, rfl, hx₁⟩ := exists_append_of_mem_place (List.mem_filter.mp hx).1
        rw [Nat.add_sub_cancel, hx₁, hs.blocks.size_eq hk]
        omega
      others := fun h => by
        refine Spares.keeps hs hl fun x hx hxq => ?_
        obtain ⟨m, hm, -⟩ := labelAt_of_mem_held hk hs.blocks hx
        have hxl : live (x.1 + memheapSize k) = some m := by rw [hl, liveOf_add, hm]
        have hsame := ((hkept h).2 _ hxq (Option.isSome_of_eq_some hxl)).2.2
        rwa [Nat.add_sub_cancel] at hsame }

theorem available_of_none (hk : k ≤ 30) {h : Memheap} (hg : Good k ⟨h, fun _ => none⟩) :
    h.availableSize = h.poolSize - 2 * memheapSize k := by
  obtain ⟨bs, fl, hs, -, hlive⟩ := hg
  simp only at hs hlive
  have hfree : ∀ b ∈ bs, b.label = none := fun b hb => by
    obtain ⟨xs, ys, rfl⟩ := List.append_of_mem hb
    have hnone := congrFun hlive (h.startAddr + total xs + memheapSize k)
    rw [liveOf_add, labelAt_middle fun c hc => hs.blocks.pos hk c (by simp [hc])] at hnone
    exact hnone.symm
  have havail := hs.available
  have htotal := hs.blocks.total_eq
  cases bs with
  | nil =>
    simp only [total, spare, List.map_nil, List.sum_nil] at havail htotal
    omega
  | cons b bs =>
    cases bs with
    | nil =>
      rw [spare_cons_of_none _ (hfree b (by simp))] at havail
      simp only [total, spare, List.map_nil, List.sum_nil] at havail htotal
      omega
    | cons c bs =>
      -- two free items are never neighbours
      have hcompact := (List.isChain_cons_cons.mp hs.compact).1
      rw [hfree b (by simp), hfree c (by simp)] at hcompact
      simp at hcompact

end RtThread.Memory.MemHeap
