import RtThread.Memory.SmallMemChain

/-!
# The unused blocks of the heap

What `lfree` and the search of `rt_malloc` are about, read off the headers: the blocks from offset 0 along `next`, and
those of them that are unused.
-/

namespace RtThread.Memory.SmallMem

open RtThread.Lib.Bytes RtThread.Lib.Word RtThread.Lib.Tiling

variable (k : ℕ)

/-- The blocks from `p` on, without `heap_end`. -/
def offsetsFrom (h : Heap) : ℕ → ℕ → List ℕ
  | 0, _ => []
  | fuel + 1, p => if p = h.heapEnd k then [] else p :: offsetsFrom h fuel (nextOf h.mem p)

def Heap.offsets (h : Heap) : List ℕ := offsetsFrom k h (h.fuel k) 0

def Heap.unused (h : Heap) : List ℕ := (h.offsets k).filter fun p => usedOf h.mem p = 0

/-- `lfree` is the unused block with the lowest offset, or `heap_end` when no block is unused. -/
structure LowestFree (h : Heap) : Prop where
  unused : h.lfree ∈ h.unused k ∨ h.lfree = h.heapEnd k
  lowest : ∀ p ∈ h.unused k, h.lfree ≤ p

/-- The size that `rt_malloc` looks for. -/
def request (size : ℕ) : ℕ := if alignUp k size < minSizeAligned k then minSizeAligned k else alignUp k size

/-- The first unused block from `lfree` on that is large enough and begins before `mem_size_aligned - size`. -/
def firstFit (h : Heap) (size : ℕ) : Option ℕ :=
  (h.unused k).find? fun p => h.lfree ≤ p ∧ p < h.memSizeAligned - size ∧ size ≤ dataSize k h.mem p

variable {k} {m : Mem} {h : Heap} {p q : ℕ} {bs xs ys : List (Tile ℕ)} {b : Tile ℕ}

theorem Seg.header {x : ℕ × Tile ℕ} (hs : Seg k m q p bs) (hx : x ∈ place p bs) :
    usedOf m x.1 = x.2.label.isSome.toNat ∧ nextOf m x.1 = x.1 + x.2.len ∧ sizeofStructMem k ≤ x.2.len := by
  induction bs generalizing q p with
  | nil => cases hx
  | cons b bs ih =>
    rcases List.mem_cons.mp hx with rfl | hx
    · exact ⟨hs.1.used, hs.1.next, hs.2.1⟩
    · exact ih hs.2.2 hx

theorem Seg.filter_unused (hs : Seg k m q p bs) :
    ((place p bs).map Prod.fst).filter (fun x => usedOf m x = 0) = vacant p bs := by
  rw [vacant, List.filter_map]
  refine congrArg (List.map Prod.fst) (List.filter_congr fun x hx => ?_)
  simp only [Function.comp_apply, (hs.header hx).1]
  cases x.2.label <;> rfl

theorem Shape.length_lt (hk : k ≤ 30) (hs : Shape k h bs) : bs.length < h.fuel k := by
  rw [Heap.fuel, ← hs.total_eq]
  exact Nat.lt_succ_of_le (length_le_total (hs.pos hk))

theorem offsetsFrom_eq (hk : k ≤ 30) {fuel : ℕ} (hs : Shape k h (xs ++ ys)) (hfuel : ys.length < fuel) :
    offsetsFrom k h fuel (total xs) = (place (total xs) ys).map Prod.fst := by
  induction ys generalizing xs fuel with
  | nil =>
    obtain ⟨n, rfl⟩ := Nat.exists_eq_add_of_lt hfuel
    have htotal := hs.total_eq
    rw [List.append_nil] at htotal
    simp only [offsetsFrom]
    rw [if_pos htotal]
    rfl
  | cons b ys ih =>
    obtain ⟨n, rfl⟩ : ∃ n, fuel = n + 1 := ⟨fuel - 1, by have := Nat.zero_lt_of_lt hfuel; omega⟩
    have hpos := hs.pos hk b (by simp)
    obtain ⟨-, hhead, -, -, htotal⟩ := hs.cons
    have hrest := @ih (xs ++ [b]) n (by simpa using hs) (by simpa using hfuel)
    simp only [offsetsFrom]
    rw [if_neg (by omega), hhead.next, place, List.map_cons, show total xs + b.len = total (xs ++ [b]) by simp [total],
      hrest]

theorem unused_eq (hk : k ≤ 30) (hs : Shape k h bs) : h.unused k = vacant 0 bs := by
  have hoffsets := @offsetsFrom_eq k h [] bs hk (h.fuel k) hs (hs.length_lt hk)
  rw [total] at hoffsets
  rw [Heap.unused, Heap.offsets, hoffsets, hs.seg.filter_unused]

theorem lowestFree_iff (hk : k ≤ 30) (hs : Shape k h bs) : LowestFree k h ↔ Low k h bs := by
  have hpos := hs.pos hk
  have hsorted : (vacant 0 bs).Pairwise (· < ·) := by
    have hends := ends_pairwise hpos 0
    exact (List.pairwise_append.mp hends).1.sublist (List.filter_sublist.map Prod.fst)
  have hlt : ∀ p ∈ vacant 0 bs, p < h.heapEnd k := fun p hp => hs.total_eq ▸ vacant_lt_total hpos hp
  have hunused := unused_eq hk hs
  rw [Low]
  constructor
  · rintro ⟨hfree, hlow⟩
    rw [hunused] at hfree hlow
    cases hv : vacant 0 bs with
    | nil =>
      rw [hv] at hfree
      exact hfree.resolve_left List.not_mem_nil
    | cons p l =>
      rw [hv] at hsorted hfree hlow hlt
      have hp := hlow p List.mem_cons_self
      have hend := hlt p List.mem_cons_self
      rcases hfree with hfree | hfree
      · rcases List.mem_cons.mp hfree with hfree | hfree
        · exact hfree
        · have := List.rel_of_pairwise_cons hsorted hfree
          omega
      · omega
  · intro hlow
    rw [← hunused] at hlow hsorted
    cases hv : h.unused k with
    | nil =>
      rw [hv] at hlow
      exact ⟨Or.inr hlow, by simp [hv]⟩
    | cons p l =>
      rw [hv] at hlow hsorted
      refine ⟨Or.inl ?_, fun q hq => ?_⟩
      · rw [hv, hlow]
        exact List.mem_cons_self
      · rw [hv] at hq
        rw [hlow]
        rcases List.mem_cons.mp hq with rfl | hq
        · exact le_rfl
        · exact (List.rel_of_pairwise_cons hsorted hq).le

end RtThread.Memory.SmallMem
