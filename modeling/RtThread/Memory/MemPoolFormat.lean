import RtThread.Memory.MemPoolRuns

/-!
# Formatting a memory pool (`mempool.c:77-122`)

`rt_mp_init` with its addresses: the words it stores and where. The blocks are chained from the start
of the memory, and the last word is stored through the number of blocks, less one. `RT_ALIGN_SIZE` is
`2 ^ k`, a multiple of the four bytes of a pointer.
-/

namespace RtThread.Memory.MemPool.Format

open RtThread.Lib.Chain RtThread.Lib.Word

/-- `struct rt_mempool` with addresses, the words of the memory, and the addresses stored to. -/
structure Pool where
  startAddress : ℕ
  size : ℕ
  blockSize : ℕ
  blockTotalCount : ℕ
  blockList : ℕ
  word : ℕ → ℕ
  stored : List ℕ

/-- `*(rt_uint8_t **)address = pointer`. -/
def Pool.store (mp : Pool) (address pointer : ℕ) : Pool :=
  { mp with word := Function.update mp.word address pointer, stored := address :: mp.stored }

/-- `block_ptr + offset * (block_size + sizeof(rt_uint8_t *))`. -/
def blockPtr (mp : Pool) (offset : ℕ) : ℕ := (mp.startAddress + offset * add 32 mp.blockSize 4) % 2 ^ 32

/-- The loop of `rt_mp_init` (`mempool.c:109-114`). -/
def formatLoop (mp : Pool) : ℕ → Pool
  | 0 => mp
  | offset + 1 => (formatLoop mp offset).store (blockPtr mp offset) (blockPtr mp (offset + 1))

/-- `rt_mp_init` (`mempool.c:77-122`). A division by zero gives zero, as on the target. -/
def rtMpInit (k start size blockSize : ℕ) (word : ℕ → ℕ) : Pool :=
  let mpSize := size / 2 ^ k * 2 ^ k
  let blockSize := alignUp k blockSize
  let total := mpSize / add 32 blockSize 4
  let mp : Pool := ⟨start, mpSize, blockSize, total, start, word, []⟩
  (formatLoop mp total).store (blockPtr mp (sub 32 total 1)) 0

/-- The link in a block, which is the word in front of it. -/
def Pool.next (mp : Pool) (address : ℕ) : Option ℕ := if mp.word address = 0 then none else some (mp.word address)

/-- Every pointer that is stored lies in the memory of the pool, and `block_list` is a chain of as many blocks
as there are, which ends in the null pointer. -/
structure WellFormatted (start size : ℕ) (mp : Pool) : Prop where
  inside : ∀ a ∈ mp.stored, start ≤ a ∧ a + 4 ≤ start + size
  chain : ∃ l : List ℕ, l.length = mp.blockTotalCount ∧ l.Nodup ∧
    Linked mp.next (if mp.blockList = 0 then none else some mp.blockList) l

variable {mp : Pool} {k start size blockSize : ℕ} {word : ℕ → ℕ}

theorem formatLoop_fields (mp : Pool) (n : ℕ) : (formatLoop mp n).blockTotalCount = mp.blockTotalCount ∧
    (formatLoop mp n).blockList = mp.blockList := by
  induction n with
  | zero => exact ⟨rfl, rfl⟩
  | succ n ih => exact ih

theorem mem_formatLoop_stored {n a : ℕ} (h : a ∈ (formatLoop mp n).stored) :
    a ∈ mp.stored ∨ ∃ offset < n, a = blockPtr mp offset := by
  induction n with
  | zero => exact Or.inl h
  | succ n ih =>
    rcases List.mem_cons.mp h with rfl | h
    · exact Or.inr ⟨n, Nat.lt_succ_self n, rfl⟩
    · refine (ih h).imp_right ?_
      rintro ⟨offset, hlt, rfl⟩
      exact ⟨offset, Nat.lt_succ_of_lt hlt, rfl⟩

/-- A pool whose blocks fit: the addresses do not wrap and are all different. -/
structure Fits (mp : Pool) : Prop where
  pos : 0 < mp.startAddress
  word_le : 4 ≤ add 32 mp.blockSize 4
  total_le : mp.blockTotalCount * add 32 mp.blockSize 4 ≤ mp.size
  bound : mp.startAddress + mp.size ≤ 2 ^ 32

theorem Fits.block_le (h : Fits mp) {offset : ℕ} (hlt : offset < mp.blockTotalCount) :
    offset * add 32 mp.blockSize 4 + add 32 mp.blockSize 4 ≤ mp.size := by
  calc offset * add 32 mp.blockSize 4 + add 32 mp.blockSize 4 = (offset + 1) * add 32 mp.blockSize 4 := by ring
    _ ≤ mp.blockTotalCount * add 32 mp.blockSize 4 := Nat.mul_le_mul_right _ hlt
    _ ≤ mp.size := h.total_le

theorem Fits.blockPtr_eq (h : Fits mp) {offset : ℕ} (hlt : offset < mp.blockTotalCount) :
    blockPtr mp offset = mp.startAddress + offset * add 32 mp.blockSize 4 := by
  have hle := h.block_le hlt
  have hword := h.word_le
  have hbound := h.bound
  exact Nat.mod_eq_of_lt (by omega)

theorem Fits.blockPtr_inj (h : Fits mp) {i j : ℕ} (hi : i < mp.blockTotalCount) (hj : j < mp.blockTotalCount)
    (heq : blockPtr mp i = blockPtr mp j) : i = j := by
  rw [h.blockPtr_eq hi, h.blockPtr_eq hj] at heq
  have hword := h.word_le
  exact Nat.eq_of_mul_eq_mul_right (by omega) (Nat.add_left_cancel heq)

theorem Fits.formatLoop_word (h : Fits mp) {n i : ℕ} (hn : n ≤ mp.blockTotalCount) (hi : i < n) :
    (formatLoop mp n).word (blockPtr mp i) = blockPtr mp (i + 1) := by
  induction n with
  | zero => exact absurd hi (Nat.not_lt_zero i)
  | succ n ih =>
    rw [formatLoop, Pool.store]
    rcases Nat.lt_succ_iff_lt_or_eq.mp hi with hlt | rfl
    · have hne : blockPtr mp i ≠ blockPtr mp n := by
        intro heq
        have := h.blockPtr_inj (by omega) (by omega) heq
        omega
      simp only
      rw [Function.update_of_ne hne]
      exact ih (by omega) hlt
    · exact Function.update_self ..

/-- The pool as `rt_mp_init` sets it up before it stores the first pointer. -/
def setUp (k start size blockSize : ℕ) (word : ℕ → ℕ) : Pool :=
  ⟨start, size / 2 ^ k * 2 ^ k, alignUp k blockSize, size / 2 ^ k * 2 ^ k / add 32 (alignUp k blockSize) 4, start,
    word, []⟩

theorem rtMpInit_eq (k start size blockSize : ℕ) (word : ℕ → ℕ) : rtMpInit k start size blockSize word =
    (formatLoop (setUp k start size blockSize word) (setUp k start size blockSize word).blockTotalCount).store
      (blockPtr (setUp k start size blockSize word) (sub 32 (setUp k start size blockSize word).blockTotalCount 1)) 0 :=
  rfl

theorem four_dvd_stride (hk : 2 ≤ k) (blockSize : ℕ) : 4 ∣ add 32 (alignUp k blockSize) 4 := by
  have halign : 4 ∣ alignUp k blockSize := (Nat.pow_dvd_pow 2 hk).trans (dvd_alignUp k blockSize)
  unfold add
  omega

theorem setUp_fits (hk : 2 ≤ k) (hbound : start + size ≤ 2 ^ 32) (hstart : start ≠ 0)
    (htotal : 0 < (setUp k start size blockSize word).blockTotalCount) : Fits (setUp k start size blockSize word) := by
  obtain ⟨m, hm⟩ := four_dvd_stride hk blockSize
  have hsize := Nat.div_mul_le_self size (2 ^ k)
  refine ⟨Nat.pos_of_ne_zero hstart, ?_, Nat.div_mul_le_self _ _, ?_⟩
  · by_contra hlt
    have hzero : add 32 (alignUp k blockSize) 4 = 0 := by
      simp only [setUp] at hlt
      omega
    simp only [setUp, hzero, Nat.div_zero] at htotal
    exact absurd htotal (lt_irrefl 0)
  · simp only [setUp]
    omega

theorem setUp_total_lt (hbound : start + size ≤ 2 ^ 32) (hstart : start ≠ 0) :
    (setUp k start size blockSize word).blockTotalCount < 2 ^ 32 := by
  have hle : (setUp k start size blockSize word).blockTotalCount ≤ size :=
    (Nat.div_le_self _ _).trans (Nat.div_mul_le_self _ _)
  omega

/-- The pool when the last pointer is stored: every block leads to the next one, and the last to none. -/
theorem Fits.next_formatted (h : Fits mp) (htotal : 0 < mp.blockTotalCount) {i : ℕ} (hi : i < mp.blockTotalCount) :
    ((formatLoop mp mp.blockTotalCount).store (blockPtr mp (mp.blockTotalCount - 1)) 0).next (blockPtr mp i) =
      if i + 1 < mp.blockTotalCount then some (blockPtr mp (i + 1)) else none := by
  unfold Pool.next Pool.store
  simp only
  by_cases hlast : i + 1 < mp.blockTotalCount
  · have hne : blockPtr mp i ≠ blockPtr mp (mp.blockTotalCount - 1) := by
      intro heq
      have := h.blockPtr_inj hi (by omega) heq
      omega
    have hpos : blockPtr mp (i + 1) ≠ 0 := by
      rw [h.blockPtr_eq hlast]
      have := h.pos
      omega
    rw [Function.update_of_ne hne, h.formatLoop_word le_rfl hi, if_neg hpos, if_pos hlast]
  · rw [show i = mp.blockTotalCount - 1 by omega, Function.update_self, if_pos rfl, if_neg (by omega)]

theorem Fits.chain (h : Fits mp) (htotal : 0 < mp.blockTotalCount) (hlist : mp.blockList = mp.startAddress) :
    Linked ((formatLoop mp mp.blockTotalCount).store (blockPtr mp (mp.blockTotalCount - 1)) 0).next
      (if mp.blockList = 0 then none else some mp.blockList) ((List.range' 0 mp.blockTotalCount).map (blockPtr mp)) := by
  have hlinked := @linked_map_range' ℕ
    ((formatLoop mp mp.blockTotalCount).store (blockPtr mp (mp.blockTotalCount - 1)) 0).next (blockPtr mp) 0
    mp.blockTotalCount
    (fun i _ hi => by rw [h.next_formatted htotal (by omega), if_pos (by omega)])
    (fun _ => by rw [h.next_formatted htotal (by omega), if_neg (by omega)])
  have hpos := h.pos
  rw [if_neg (by omega), h.blockPtr_eq htotal, Nat.zero_mul, Nat.add_zero] at hlinked
  rw [hlist, if_neg (by omega)]
  exact hlinked

theorem wellFormatted_of_fits (hk : 2 ≤ k) (hbound : start + size ≤ 2 ^ 32) (hstart : start ≠ 0)
    (htotal : 0 < (setUp k start size blockSize word).blockTotalCount) :
    WellFormatted start size (rtMpInit k start size blockSize word) := by
  have hlt := @setUp_total_lt k start size blockSize word hbound hstart
  have h := @setUp_fits k start size blockSize word hk hbound hstart htotal
  have hsize : (setUp k start size blockSize word).size ≤ size := Nat.div_mul_le_self size (2 ^ k)
  have haddress : (setUp k start size blockSize word).startAddress = start := rfl
  have hlist : (setUp k start size blockSize word).blockList = start := rfl
  have hnil : (setUp k start size blockSize word).stored = [] := rfl
  rw [rtMpInit_eq, sub_of_le htotal hlt]
  generalize setUp k start size blockSize word = mp at *
  have hword := h.word_le
  obtain ⟨hcount, hblockList⟩ := formatLoop_fields mp mp.blockTotalCount
  constructor
  · intro a ha
    have hptr : ∃ offset < mp.blockTotalCount, a = blockPtr mp offset := by
      rcases List.mem_cons.mp ha with rfl | ha
      · exact ⟨mp.blockTotalCount - 1, by omega, rfl⟩
      · refine (mem_formatLoop_stored ha).resolve_left ?_
        rw [hnil]
        exact List.not_mem_nil
    obtain ⟨offset, hoffset, rfl⟩ := hptr
    have hle := h.block_le hoffset
    rw [h.blockPtr_eq hoffset]
    omega
  · refine ⟨(List.range' 0 mp.blockTotalCount).map (blockPtr mp), ?_, ?_, ?_⟩
    · rw [List.length_map, List.length_range']
      exact hcount.symm
    · refine List.Nodup.map_on (fun i hi j hj heq => ?_) List.nodup_range'
      rw [List.mem_range'_1] at hi hj
      exact h.blockPtr_inj (by omega) (by omega) heq
    · have hchain := h.chain htotal (hlist.trans haddress.symm)
      rw [← hblockList] at hchain
      exact hchain

/-- With no block in it `block_list` is a pointer all the same. -/
theorem not_wellFormatted_of_empty (hstart : start ≠ 0)
    (hempty : (setUp k start size blockSize word).blockTotalCount = 0) :
    ¬WellFormatted start size (rtMpInit k start size blockSize word) := by
  rintro ⟨-, l, hlen, -, hlinked⟩
  obtain ⟨hcount, hblockList⟩ := formatLoop_fields (setUp k start size blockSize word) 0
  rw [rtMpInit_eq, hempty] at hlen hlinked
  have hnil : l = [] := List.eq_nil_of_length_eq_zero (hlen.trans (hcount.trans hempty))
  rw [hnil] at hlinked
  have hlist : ((formatLoop (setUp k start size blockSize word) 0).store
      (blockPtr (setUp k start size blockSize word) (sub 32 0 1)) 0).blockList = start := rfl
  rw [hlist, if_neg hstart] at hlinked
  cases hlinked

/-- A pool of a memory that is not null is formatted in its memory exactly if a block with its link fits. -/
theorem pool_formatted_iff (hk : 2 ≤ k) (hbound : start + size ≤ 2 ^ 32) (hstart : start ≠ 0) (blockSize : ℕ)
    (word : ℕ → ℕ) : WellFormatted start size (rtMpInit k start size blockSize word) ↔
      0 < add 32 (alignUp k blockSize) 4 ∧ add 32 (alignUp k blockSize) 4 ≤ size / 2 ^ k * 2 ^ k := by
  rw [← Nat.div_pos_iff, show size / 2 ^ k * 2 ^ k / add 32 (alignUp k blockSize) 4 =
    (setUp k start size blockSize word).blockTotalCount from rfl]
  constructor
  · intro h
    by_contra hzero
    exact not_wellFormatted_of_empty hstart (Nat.eq_zero_of_not_pos hzero) h
  · intro htotal
    exact wellFormatted_of_fits hk hbound hstart htotal

theorem pool_formatted_iff_three :
    (rtMpInit 2 1000 64 15 fun _ => 0).stored = [1040, 1040, 1020, 1000] ∧
      WellFormatted 1000 64 (rtMpInit 2 1000 64 15 fun _ => 0) :=
  ⟨by decide, (@pool_formatted_iff 2 1000 64 le_rfl (by decide) (by decide) 15 fun _ => 0).mpr (by decide)⟩

/-- Eight bytes of memory, and blocks of sixteen: the pointer is stored twenty bytes in front of it. -/
theorem pool_formatted_outside :
    (rtMpInit 2 1000 8 16 fun _ => 0).stored = [980] ∧ (rtMpInit 2 1000 8 16 fun _ => 0).blockList = 1000 ∧
      ¬WellFormatted 1000 8 (rtMpInit 2 1000 8 16 fun _ => 0) := by
  refine ⟨by decide, rfl, fun h => ?_⟩
  have hin := h.inside 980 (by decide)
  exact absurd hin.1 (by decide)

/-! ### The blocks by their numbers -/

/-- Where a pool has blocks, its links are those of the pool whose blocks are known by their numbers. -/
theorem next_rtMpInit {T : Type*} (hk : 2 ≤ k) (hbound : start + size ≤ 2 ^ 32) (hstart : start ≠ 0)
    (link : ℕ → Link) (thread : T → Ipc.Base.Thread) (tick : ℕ) {i : ℕ}
    (hi : i < (setUp k start size blockSize word).blockTotalCount) :
    (rtMpInit k start size blockSize word).next (blockPtr (setUp k start size blockSize word) i) =
      ((MemPool.rtMpInit k link size blockSize thread tick).word i).next.map
        (blockPtr (setUp k start size blockSize word)) := by
  have htotal := Nat.zero_lt_of_lt hi
  have hlt := @setUp_total_lt k start size blockSize word hbound hstart
  have h := @setUp_fits k start size blockSize word hk hbound hstart htotal
  have hword : (MemPool.rtMpInit k link size blockSize thread tick).word =
      Function.update (rtMpInitLoop link (setUp k start size blockSize word).blockTotalCount)
        ((setUp k start size blockSize word).blockTotalCount - 1) .null := rfl
  rw [rtMpInit_eq, sub_of_le htotal hlt, h.next_formatted htotal hi, hword]
  by_cases hlast : i + 1 < (setUp k start size blockSize word).blockTotalCount
  · rw [if_pos hlast, Function.update_of_ne (by omega), rtMpInitLoop_apply link hi]
    rfl
  · rw [if_neg hlast, show i = (setUp k start size blockSize word).blockTotalCount - 1 by omega, Function.update_self]
    rfl

end RtThread.Memory.MemPool.Format
