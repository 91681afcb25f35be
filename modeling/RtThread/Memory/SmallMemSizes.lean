import RtThread.Memory.SmallMemLowest

/-!
# How large the blocks of the small-memory heap are

Sizes that wrap when they are aligned, multiplied or added up, and `rt_malloc_align` (`kservice.c:1200-1237`). The word
that it leaves before the pointer is what `rt_free_align` frees.
-/

namespace RtThread.Memory.SmallMem

open RtThread.Lib.Bytes RtThread.Lib.Word RtThread.Lib.Tiling RtThread.Lib.Transition

variable (k : ℕ)

/-- The pointer that is handed out in the block `ptr` (`kservice.c:1217-1225`). -/
def alignPtr (ptr align : ℕ) : ℕ :=
  if ptr &&& sub 32 align 1 = 0 then add 32 ptr align
  else add 32 ptr (sub 32 align 1) &&& (2 ^ 32 - 1 - sub 32 align 1)

/-- `align_size` (`kservice.c:1211`). -/
def alignSize (size align : ℕ) : ℕ := add 32 (alignUp 2 size) (alignUp 2 align)

/-- `rt_malloc_align` (`kservice.c:1200-1237`). -/
def rtMallocAlign (h : Heap) (size align : ℕ) : Option (Heap × ℕ) :=
  (rtMalloc k h (alignSize size align)).map fun (h, ptr) =>
    if ptr = 0 then (h, 0)
    else
      let r := alignPtr ptr (alignUp 2 align)
      ({ h with mem := store 4 h.mem (sub 32 (sub 32 r 4) h.heapPtr) ptr }, r)

/-- The pointer that `rt_free_align` frees. -/
def Heap.realPtr (h : Heap) (ptr : ℕ) : ℕ := load 4 h.mem (sub 32 (sub 32 ptr 4) h.heapPtr)

/-- The block of `rmem` holds the `n` bytes from `r` on. -/
def Holds (h : Heap) (rmem r n : ℕ) : Prop := rmem ≤ r ∧ r + n ≤ h.heapPtr + nextOf h.mem (h.block k rmem)

def MallocLarge (h : Heap) (size : ℕ) : Prop :=
  ∀ h' r, rtMalloc k h size = some (h', r) → r ≠ 0 → Holds k h' r r size

def CallocLarge (h : Heap) (count size : ℕ) : Prop :=
  ∀ h' r, rtCalloc k h count size = some (h', r) → r ≠ 0 → Holds k h' r r (count * size)

def ReallocLarge (h : Heap) (rmem newsize : ℕ) : Prop :=
  ∀ h' r, rtRealloc k h rmem newsize = some (h', r) → r ≠ 0 → Holds k h' r r newsize

def MallocAlignLarge (h : Heap) (size align : ℕ) : Prop :=
  ∀ h' r, rtMallocAlign k h size align = some (h', r) → r ≠ 0 → Holds k h' (h'.realPtr r) r size

/-- `rt_malloc` finds no block for `size` bytes. -/
def FindsNone (h : Heap) (size : ℕ) : Prop := size = 0 ∨ firstFit k h (request k size) = none

/-- The sums of `rt_malloc_align` do not wrap. -/
def AlignFits (size align : ℕ) : Prop := (size + 3) / 4 * 4 + alignUp 2 align + (2 ^ k - 1) < 2 ^ 32

instance (size align : ℕ) : Decidable (AlignFits k size align) := inferInstanceAs (Decidable (_ < _))

/-- `rt_malloc_align` finds no block, or its pointer wraps to `RT_NULL`. -/
def AlignFindsNone (h : Heap) (size align : ℕ) : Prop :=
  ∀ p, alignSize size align ≠ 0 → firstFit k h (request k (alignSize size align)) = some p →
    alignPtr (h.heapPtr + p + sizeofStructMem k) (alignUp 2 align) = 0

variable {k} {m : Mem} {h h₀ h' : Heap} {s : Sys} {bs : List (Tile ℕ)} {p r n size : ℕ}

theorem Inv.block_end (hi : Inv k h bs) {x : ℕ × Tile ℕ} (hx : x ∈ held 0 bs) :
    nextOf h.mem x.1 = x.1 + x.2.len ∧ h.heapPtr + nextOf h.mem x.1 + sizeofStructMem k < 2 ^ 32 := by
  have hplace := (List.mem_filter.mp hx).1
  have hnext := (hi.shape.seg.header hplace).2.1
  have hle := (mem_place hplace).2
  have htotal := hi.shape.total_eq
  have hbound := hi.shape.bound
  exact ⟨hnext, by omega⟩

/-- What `rt_malloc` returns in a state of a run: nothing, or the first block that fits, with room for `n` bytes. -/
theorem malloc_block (hk : k ≤ 30) (hf : Fresh k h₀) (hr : Reached k h₀ s) (hn : n ≤ request k size)
    (hmalloc : rtMalloc k s.heap size = some (h', r)) :
    (r = 0 ∧ FindsNone k s.heap size) ∨ ∃ p, size ≠ 0 ∧ firstFit k s.heap (request k size) = some p ∧
      r = s.heap.heapPtr + p + sizeofStructMem k ∧ h'.heapPtr = s.heap.heapPtr ∧
      r + n ≤ s.heap.heapPtr + nextOf h'.mem p ∧ s.heap.heapPtr + nextOf h'.mem p + sizeofStructMem k < 2 ^ 32 := by
  rcases hr with ⟨bs, hi, -⟩ | ⟨htiny, rfl⟩
  · obtain ⟨h₁, r₁, hr₁, hspec⟩ := rtMalloc_spec hk hi hn
    cases hmalloc.symm.trans hr₁
    rcases hspec with ⟨rfl, -, hnone⟩ | ⟨bs', p, l, rfl, ⟨hpos, hfit⟩, -, hi', hptr, hadds, -⟩
    · exact Or.inl ⟨rfl, or_iff_not_imp_left.mpr hnone⟩
    · have hx : (p, (⟨l, some n⟩ : Tile ℕ)) ∈ held 0 bs' := (hadds.mem_iff _).mpr (Or.inl rfl)
      obtain ⟨hnext, hbound⟩ := hi'.block_end hx
      have hfits := (hi'.fits _ hx).2 n rfl
      simp only at hnext hbound hfits
      rw [hptr] at hbound
      exact Or.inr ⟨p, hpos, hfit, rfl, hptr, by omega, hbound⟩
  · obtain ⟨-, rfl, -⟩ := hf.tiny_malloc hk htiny hmalloc
    refine Or.inl ⟨rfl, Or.inr (firstFit_of_lt ?_)⟩
    show h₀.memSizeAligned < request k size
    rw [request]
    split <;> omega

theorem malloc_of_firstFit (hk : k ≤ 30) (hr : Reached k h₀ s) (hpos : size ≠ 0)
    (hfit : firstFit k s.heap (request k size) = some p) :
    ∃ h', rtMalloc k s.heap size = some (h', s.heap.heapPtr + p + sizeofStructMem k) := by
  rcases hr with ⟨bs, hi, -⟩ | ⟨htiny, rfl⟩
  · obtain ⟨h₁, r₁, hr₁, hspec⟩ := rtMalloc_spec hk hi (Nat.zero_le (request k size))
    rcases hspec with ⟨-, -, hnone⟩ | ⟨bs', q, l, rfl, ⟨-, hsome⟩, -⟩
    · rw [hnone hpos] at hfit
      cases hfit
    · rw [hfit] at hsome
      cases hsome
      exact ⟨h₁, hr₁⟩
  · have hlt : h₀.memSizeAligned < request k size := by
      rw [request]
      split <;> omega
    rw [firstFit_of_lt hlt] at hfit
    cases hfit

theorem not_findsNone (hnone : ¬FindsNone k h size) : size ≠ 0 ∧ ∃ p, firstFit k h (request k size) = some p := by
  obtain ⟨hpos, hfit⟩ := not_or.mp hnone
  exact ⟨hpos, Option.ne_none_iff_exists'.mp hfit⟩

theorem malloc_large_iff (hk : k ≤ 30) (hf : Fresh k h₀) (hr : Reached k h₀ s) (size : ℕ) :
    MallocLarge k s.heap size ↔ size + (2 ^ k - 1) < 2 ^ 32 ∨ FindsNone k s.heap size := by
  obtain ⟨h12, -, hdvd⟩ := sizeof_spec hk
  have hpow : 2 ^ k ≤ sizeofStructMem k := Nat.le_of_dvd (by omega) hdvd
  constructor
  · intro hlarge
    by_contra hnot
    obtain ⟨hwrap, hfinds⟩ := not_or.mp hnot
    obtain ⟨hpos, p, hfit⟩ := not_findsNone hfinds
    obtain ⟨h', hmalloc⟩ := malloc_of_firstFit hk hr hpos hfit
    have hholds := hlarge h' _ hmalloc (by omega)
    rcases malloc_block hk hf hr (Nat.zero_le _) hmalloc with ⟨hnull, -⟩ | ⟨q, -, -, hq, hptr, -, hbound⟩
    · omega
    · have hle := hholds.2
      rw [← hptr, block_eq, hptr] at hle
      rw [show q = p by omega] at hbound
      omega
  · rintro hor h' r hmalloc hne
    rcases hor with hsize | hnone
    · rcases malloc_block hk hf hr (le_request hsize) hmalloc with ⟨hnull, -⟩ | ⟨p, -, -, rfl, hptr, hle, -⟩
      · exact absurd hnull hne
      · refine ⟨le_rfl, ?_⟩
        rw [← hptr, block_eq, hptr]
        exact hle
    · rcases malloc_block hk hf hr (Nat.zero_le _) hmalloc with ⟨hnull, -⟩ | ⟨p, hpos, hfit, -⟩
      · exact absurd hnull hne
      · rcases hnone with hzero | hnone
        · exact absurd hzero hpos
        · rw [hnone] at hfit
          cases hfit

theorem nextOf_memset (m : Mem) {dst q : ℕ} (n : ℕ) (hq : q + 8 ≤ dst) : nextOf (rtMemset m dst n) q = nextOf m q :=
  load_congr fun x hx => rtMemset_of_out (by have := hx.2; omega)

/-- `rt_calloc` returns what `rt_malloc` does, for the product as it wraps. -/
theorem calloc_block (hk : k ≤ 30) (hf : Fresh k h₀) (hr : Reached k h₀ s) {count : ℕ}
    (hn : n ≤ request k (count * size % 2 ^ 32)) (hcalloc : rtCalloc k s.heap count size = some (h', r)) :
    (r = 0 ∧ FindsNone k s.heap (count * size % 2 ^ 32)) ∨ ∃ p, ¬FindsNone k s.heap (count * size % 2 ^ 32) ∧
      r = s.heap.heapPtr + p + sizeofStructMem k ∧ h'.heapPtr = s.heap.heapPtr ∧
      r + n ≤ s.heap.heapPtr + nextOf h'.mem p ∧ s.heap.heapPtr + nextOf h'.mem p + sizeofStructMem k < 2 ^ 32 := by
  have h12 := (sizeof_spec hk).1
  obtain ⟨⟨h₁, r₁⟩, hmalloc, hset⟩ := Option.map_eq_some_iff.mp hcalloc
  rcases malloc_block hk hf hr hn hmalloc with ⟨rfl, hnone⟩ | ⟨p, hpos, hfit, rfl, hptr, hle, hbound⟩
  · cases hset
    exact Or.inl ⟨rfl, hnone⟩
  · simp only [if_neg (show s.heap.heapPtr + p + sizeofStructMem k ≠ 0 by omega)] at hset
    cases hset
    refine Or.inr ⟨p, ?_, rfl, hptr, ?_⟩
    · rintro (hzero | hnone)
      · exact hpos hzero
      · rw [hnone] at hfit
        cases hfit
    · simp only
      rw [nextOf_memset _ _ (by omega)]
      exact ⟨hle, hbound⟩

theorem calloc_large_iff (hk : k ≤ 30) (hf : Fresh k h₀) (hr : Reached k h₀ s) (count size : ℕ) :
    CallocLarge k s.heap count size ↔
      count * size + (2 ^ k - 1) < 2 ^ 32 ∨ FindsNone k s.heap (count * size % 2 ^ 32) := by
  obtain ⟨h12, -, hdvd⟩ := sizeof_spec hk
  have hpow : 2 ^ k ≤ sizeofStructMem k := Nat.le_of_dvd (by omega) hdvd
  constructor
  · intro hlarge
    by_contra hnot
    obtain ⟨hwrap, hfinds⟩ := not_or.mp hnot
    obtain ⟨hpos, p, hfit⟩ := not_findsNone hfinds
    obtain ⟨h₁, hmalloc⟩ := malloc_of_firstFit hk hr hpos hfit
    obtain ⟨h', r, hcalloc⟩ : ∃ h' r, rtCalloc k s.heap count size = some (h', r) :=
      ⟨_, _, Option.map_eq_some_iff.mpr ⟨_, hmalloc, rfl⟩⟩
    rcases calloc_block hk hf hr (Nat.zero_le _) hcalloc with ⟨-, hnone⟩ | ⟨q, -, rfl, hptr, -, hbound⟩
    · exact hfinds hnone
    · have hle := (hlarge h' _ hcalloc (by omega)).2
      rw [← hptr, block_eq, hptr] at hle
      omega
  · rintro hor h' r hcalloc hne
    have hlt : count * size + (2 ^ k - 1) < 2 ^ 32 → count * size ≤ request k (count * size % 2 ^ 32) := by
      intro hsize
      rw [Nat.mod_eq_of_lt (by omega)]
      exact le_request hsize
    rcases hor with hsize | hnone
    · rcases calloc_block hk hf hr (hlt hsize) hcalloc with ⟨hnull, -⟩ | ⟨p, -, rfl, hptr, hle, -⟩
      · exact absurd hnull hne
      · refine ⟨le_rfl, ?_⟩
        rw [← hptr, block_eq, hptr]
        exact hle
    · rcases calloc_block hk hf hr (Nat.zero_le _) hcalloc with ⟨hnull, -⟩ | ⟨p, hfinds, -⟩
      · exact absurd hnull hne
      · exact absurd hnone hfinds

/-- `rt_realloc` aligns before it compares, so that a size that wraps frees the block. -/
theorem realloc_large (hk : k ≤ 30) (hf : Fresh k h₀) (hr : Reached k h₀ s) {rmem newsize : ℕ} (hsize : newsize < 2 ^ 32)
    (hlive : rmem = 0 ∨ (s.live rmem).isSome = true) : ReallocLarge k s.heap rmem newsize := by
  have h12 := (sizeof_spec hk).1
  intro h' r hrealloc hne
  by_cases hwrap : newsize + (2 ^ k - 1) < 2 ^ 32
  · by_cases hzero : newsize = 0
    · rw [hzero]
      refine ⟨le_rfl, ?_⟩
      have halign : alignUp k newsize = 0 := by
        rw [hzero] at hwrap ⊢
        exact Nat.eq_zero_of_dvd_of_lt (dvd_alignUp k 0) (by have := (alignUp_spec hwrap).2; omega)
      simp only [rtRealloc, halign, if_neg (Nat.not_lt_zero _), if_pos trivial] at hrealloc
      obtain ⟨h₁, -, hpair⟩ := Option.map_eq_some_iff.mp hrealloc
      cases hpair
      exact absurd rfl hne
    · rcases hlive with rfl | hlive
      · have hup := (alignUp_spec hwrap).1
        simp only [rtRealloc] at hrealloc
        split at hrealloc
        · cases hrealloc
          exact absurd rfl hne
        · rename_i hle
          rw [if_neg (by omega), if_pos trivial] at hrealloc
          have hpow := Nat.two_pow_pos k
          have hroom := @alignUp_add_le k (by omega) newsize
          have hreq : newsize ≤ request k (alignUp k newsize) := hup.trans (le_request (by omega))
          rcases malloc_block hk hf hr hreq hrealloc with ⟨hnull, -⟩ | ⟨p, -, -, rfl, hptr, hle', -⟩
          · exact absurd hnull hne
          · refine ⟨le_rfl, ?_⟩
            rw [← hptr, block_eq, hptr]
            exact hle'
      · rcases hr with ⟨bs, hi, ht⟩ | ⟨-, rfl⟩
        · obtain ⟨xs, b, ys, n, rfl, -, hb, rfl⟩ := ht.block hlive
          obtain ⟨h₁, r₁, hr₁, hspec⟩ := rtRealloc_spec hk hi hb hwrap (Nat.pos_of_ne_zero hzero)
          cases hrealloc.symm.trans hr₁
          rcases hspec with ⟨rfl, -⟩ | ⟨bs', p, l, rfl, hi', hptr, hmoves, -⟩
          · exact absurd rfl hne
          · have hx := (hmoves.mem_iff (p, ⟨l, some newsize⟩)).mpr (Or.inl rfl)
            have hnext := (hi'.block_end hx).1
            have hfits := (hi'.fits _ hx).2 newsize rfl
            simp only at hnext hfits
            refine ⟨le_rfl, ?_⟩
            rw [← hptr, block_eq, hptr, hnext]
            omega
        · cases hlive
  · rw [rtRealloc] at hrealloc
    simp only [alignUp_wrap hsize (not_lt.mp hwrap) (by omega), if_neg (Nat.not_lt_zero _), if_pos trivial] at hrealloc
    obtain ⟨h₁, -, hpair⟩ := Option.map_eq_some_iff.mp hrealloc
    cases hpair
    exact absurd rfl hne

/-! ### `rt_malloc_align` -/

theorem exists_align {align : ℕ} (halign : ∃ b, b < 32 ∧ align = 2 ^ b) : ∃ a, 2 ≤ a ∧ a ≤ 31 ∧ alignUp 2 align = 2 ^ a := by
  obtain ⟨b, hb, rfl⟩ := halign
  rcases Nat.lt_or_ge b 2 with hlt | hge
  · refine ⟨2, le_rfl, by omega, ?_⟩
    interval_cases b <;> decide
  · obtain ⟨c, rfl⟩ := Nat.exists_eq_add_of_le hge
    have hpow : 2 ^ (2 + c) ≤ 2 ^ 31 := Nat.pow_le_pow_right (by omega) (by omega)
    refine ⟨2 + c, hge, by omega, ?_⟩
    rw [alignUp, Nat.mod_eq_of_lt (by omega), Nat.pow_add]
    omega

theorem alignPtr_spec {ptr a : ℕ} (ha : a ≤ 31) (hlt : ptr + 2 ^ a < 2 ^ 32) (hpos : 0 < ptr) :
    ptr < alignPtr ptr (2 ^ a) ∧ alignPtr ptr (2 ^ a) ≤ ptr + 2 ^ a ∧ 2 ^ a ≤ alignPtr ptr (2 ^ a) := by
  have hpow := Nat.two_pow_pos a
  have hone : sub 32 (2 ^ a) 1 = 2 ^ a - 1 := sub_of_le hpow (by omega)
  rw [alignPtr, hone, Nat.and_two_pow_sub_one_eq_mod]
  split
  · rw [add_of_lt (by omega)]
    omega
  · rename_i hmod
    rw [add_of_lt (by omega), and_not_low (by omega) (by omega)]
    have hdiv := Nat.div_add_mod' (ptr + (2 ^ a - 1)) (2 ^ a)
    have hrest := Nat.mod_lt (ptr + (2 ^ a - 1)) hpow
    have hne : (ptr + (2 ^ a - 1)) / 2 ^ a * 2 ^ a ≠ ptr := by
      intro he
      rw [← he, Nat.mul_mod_left] at hmod
      exact hmod rfl
    refine ⟨by omega, by omega, Nat.le_of_dvd (by omega) (Nat.dvd_mul_left _ _)⟩

theorem alignPtr_of_le {ptr a : ℕ} (ha : a ≤ 31) (hptr : ptr < 2 ^ 32) (hpos : 0 < ptr)
    (hle : ptr ≤ alignPtr ptr (2 ^ a)) : ptr < alignPtr ptr (2 ^ a) ∧ 2 ^ a ≤ alignPtr ptr (2 ^ a) := by
  have hpow := Nat.two_pow_pos a
  have hpow' : 2 ^ a ≤ 2 ^ 31 := Nat.pow_le_pow_right (by omega) ha
  have hone : sub 32 (2 ^ a) 1 = 2 ^ a - 1 := sub_of_le hpow (by omega)
  rw [alignPtr, hone, Nat.and_two_pow_sub_one_eq_mod] at hle ⊢
  split at hle
  · rename_i hmod
    rw [if_pos hmod]
    have hnowrap : ptr + 2 ^ a < 2 ^ 32 := by
      by_contra hge
      rw [add, Nat.mod_eq_sub_mod (not_lt.mp hge), Nat.mod_eq_of_lt (by omega)] at hle
      omega
    rw [add_of_lt hnowrap]
    omega
  · rename_i hmod
    rw [if_neg hmod]
    have hsum : add 32 ptr (2 ^ a - 1) < 2 ^ 32 := Nat.mod_lt _ (Nat.two_pow_pos 32)
    rw [and_not_low hsum (by omega)] at hle ⊢
    have hdiv := Nat.div_mul_le_self (add 32 ptr (2 ^ a - 1)) (2 ^ a)
    have hne : add 32 ptr (2 ^ a - 1) / 2 ^ a * 2 ^ a ≠ ptr := by
      intro he
      rw [← he, Nat.mul_mod_left] at hmod
      exact hmod rfl
    refine ⟨by omega, Nat.le_of_dvd (by omega) (Nat.dvd_mul_left _ _)⟩

theorem alignPtr_lt (ptr align : ℕ) : alignPtr ptr align < 2 ^ 32 := by
  have hmod (x : ℕ) : x % 2 ^ 32 < 2 ^ 32 := Nat.mod_lt _ (Nat.two_pow_pos 32)
  rw [alignPtr]
  split
  · exact hmod _
  · exact Nat.and_le_left.trans_lt (hmod _)

/-- What `rt_malloc_align` returns: the block is the one before the pointer, and has room for `n` bytes. -/
theorem malloc_align_block (hk : k ≤ 30) (hf : Fresh k h₀) (hr : Reached k h₀ s) {align : ℕ}
    (hn : n ≤ request k (alignSize size align)) (halloc : rtMallocAlign k s.heap size align = some (h', r)) (hne : r ≠ 0) :
    ∃ p ptr, alignSize size align ≠ 0 ∧ firstFit k s.heap (request k (alignSize size align)) = some p ∧
      ptr = s.heap.heapPtr + p + sizeofStructMem k ∧ r = alignPtr ptr (alignUp 2 align) ∧ h'.realPtr r = ptr ∧ ptr + n < 2 ^ 32 ∧
      (ptr < r → ∃ e, h'.heapPtr + nextOf h'.mem (h'.block k ptr) = e ∧ ptr + n ≤ e ∧ e + sizeofStructMem k < 2 ^ 32) := by
  have h12 := (sizeof_spec hk).1
  obtain ⟨⟨h₁, r₁⟩, hmalloc, hset⟩ := Option.map_eq_some_iff.mp halloc
  rcases malloc_block hk hf hr hn hmalloc with ⟨rfl, -⟩ | ⟨p, hpos, hfit, rfl, hptr, hle, hbound⟩
  · cases hset
    exact absurd rfl hne
  · simp only [if_neg (show s.heap.heapPtr + p + sizeofStructMem k ≠ 0 by omega)] at hset
    cases hset
    refine ⟨p, _, hpos, hfit, rfl, rfl, load_store_self _ _ (by omega), by omega, ?_⟩
    intro hlt
    have hword := alignPtr_lt (s.heap.heapPtr + p + sizeofStructMem k) (alignUp 2 align)
    refine ⟨_, rfl, ?_⟩
    simp only [← hptr, block_eq]
    rw [hptr, sub_of_le (show 4 ≤ _ by omega) hword, sub_of_le (by omega) (by omega)]
    rw [show nextOf (store 4 h₁.mem _ _) p = nextOf h₁.mem p from load_store_of_disjoint _ _ (by omega)]
    exact ⟨hle, hbound⟩

theorem alignSize_of_fits {align : ℕ} (hfits : AlignFits k size align) :
    alignSize size align = (size + 3) / 4 * 4 + alignUp 2 align := by
  rw [AlignFits] at hfits
  have hup : alignUp 2 size = (size + 3) / 4 * 4 := by
    rw [alignUp, Nat.mod_eq_of_lt (by omega)]
    rfl
  rw [alignSize, hup, add_of_lt (by omega)]

theorem alignFits_of_le (hk : k ≤ 30) {align e : ℕ} (hle : alignUp 2 align + size ≤ e)
    (hend : e + sizeofStructMem k < 2 ^ 32) : AlignFits k size align := by
  obtain ⟨h12, -, hdvd⟩ := sizeof_spec hk
  have hpow : 2 ^ k ≤ sizeofStructMem k := Nat.le_of_dvd (by omega) hdvd
  have hfour : 4 ∣ alignUp 2 align := dvd_alignUp 2 align
  rw [AlignFits]
  rcases Nat.lt_or_ge k 2 with hlow | hhigh
  · have hsmall : 2 ^ k ≤ 2 ^ 1 := Nat.pow_le_pow_right (by omega) (by omega)
    omega
  · have hdvd' : 2 ^ 2 ∣ 2 ^ k := pow_dvd_pow 2 hhigh
    omega

theorem malloc_align_large_iff (hk : k ≤ 30) (hf : Fresh k h₀) (hr : Reached k h₀ s) {align : ℕ}
    (halign : ∃ b, b < 32 ∧ align = 2 ^ b) :
    MallocAlignLarge k s.heap size align ↔ AlignFits k size align ∨ AlignFindsNone k s.heap size align := by
  have h12 := (sizeof_spec hk).1
  obtain ⟨a, -, ha, hup⟩ := exists_align halign
  constructor
  · intro hlarge
    rw [or_iff_not_imp_right]
    intro hfinds
    obtain ⟨p, hpos, hfit, hptr⟩ : ∃ p, alignSize size align ≠ 0 ∧
        firstFit k s.heap (request k (alignSize size align)) = some p ∧
        alignPtr (s.heap.heapPtr + p + sizeofStructMem k) (alignUp 2 align) ≠ 0 := by
      simpa [AlignFindsNone] using hfinds
    obtain ⟨h₁, hmalloc⟩ := malloc_of_firstFit hk hr hpos hfit
    obtain ⟨h', halloc⟩ : ∃ h', rtMallocAlign k s.heap size align =
        some (h', alignPtr (s.heap.heapPtr + p + sizeofStructMem k) (alignUp 2 align)) := by
      rw [rtMallocAlign, hmalloc]
      simp only [Option.map_some, if_neg (show s.heap.heapPtr + p + sizeofStructMem k ≠ 0 by omega)]
      exact ⟨_, rfl⟩
    obtain ⟨hge, hend⟩ := hlarge h' _ halloc hptr
    obtain ⟨q, ptr, -, hq, rfl, -, hreal, hword, hroom⟩ := malloc_align_block hk hf hr (Nat.zero_le _) halloc hptr
    cases hfit.symm.trans hq
    rw [hreal] at hge hend
    rw [Nat.add_zero] at hword
    rw [hup] at hge hend hroom
    obtain ⟨hlt, hle⟩ := alignPtr_of_le ha hword (by omega) hge
    obtain ⟨e, rfl, -, hbound⟩ := hroom hlt
    exact alignFits_of_le hk (by omega) hbound
  · intro hor h' r halloc hne
    rcases hor with hfits | hnone
    · have hsize := alignSize_of_fits hfits
      have hn : alignSize size align ≤ request k (alignSize size align) := le_request (by rw [hsize]; exact hfits)
      obtain ⟨p, ptr, -, -, hptr, rfl, hreal, hword, hroom⟩ := malloc_align_block hk hf hr hn halloc hne
      rw [hsize, hup] at hword hroom
      rw [hup] at hreal ⊢
      have hpow := Nat.two_pow_pos a
      have hle : size ≤ (size + 3) / 4 * 4 := by omega
      obtain ⟨hlt, hsum, -⟩ := alignPtr_spec ha (show ptr + 2 ^ a < 2 ^ 32 by omega) (by omega)
      obtain ⟨e, hend, hroom, -⟩ := hroom hlt
      rw [hreal, Holds, hend]
      exact ⟨hlt.le, by omega⟩
    · obtain ⟨p, ptr, hpos, hfit, rfl, rfl, -⟩ := malloc_align_block hk hf hr (Nat.zero_le _) halloc hne
      exact absurd (hnone p hpos hfit) hne

end RtThread.Memory.SmallMem
