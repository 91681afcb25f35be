import RtThread.Lib.Tiling
import RtThread.Memory.SmallMem

/-!
# The chain of blocks

The blocks of the heap are a tiling of the offsets below `heap_end`: the length of a block
takes its header in, and its label is the size last asked for, when it is in use. `Seg` says that the headers of a
stretch of memory are those of a list of blocks. Each function that changes the chain cuts a
block in two, joins two of them, or changes the header of one.
-/

namespace RtThread.Memory.SmallMem

open RtThread.Lib.Bytes RtThread.Lib.Word RtThread.Lib.Tiling

/-! ### Headers -/

structure IsHeader (m : Mem) (p : ℕ) (used : Bool) (next prev : ℕ) : Prop where
  magic : magicOf m p = heapMagic
  used : usedOf m p = used.toNat
  next : nextOf m p = next
  prev : prevOf m p = prev

variable {m m' : Mem} {p n q : ℕ} {u : Bool}

theorem IsHeader.congr (h : IsHeader m p u n q) (heq : Set.EqOn m m' (Set.Ico p (p + 12))) :
    IsHeader m' p u n q := by
  have hload : ∀ w i, i + w ≤ 12 → load w m (p + i) = load w m' (p + i) := fun w i hi =>
    load_congr fun x hx => heq ⟨(Nat.le_add_right p i).trans hx.1, by have := hx.2; omega⟩
  exact ⟨(hload 2 0 (by omega)).symm.trans h.magic, (hload 2 2 (by omega)).symm.trans h.used,
    (hload 4 4 (by omega)).symm.trans h.next, (hload 4 8 (by omega)).symm.trans h.prev⟩

theorem IsHeader.setNext {v : ℕ} (h : IsHeader m p u n q) (hv : v < 2 ^ 32) :
    IsHeader (setNext m p v) p u v q :=
  ⟨(load_store_of_disjoint m v (by omega)).trans h.magic,
    (load_store_of_disjoint m v (by omega)).trans h.used, load_store_self m (p + 4) hv,
    (load_store_of_disjoint m v (by omega)).trans h.prev⟩

theorem IsHeader.setPrev {v : ℕ} (h : IsHeader m p u n q) (hv : v < 2 ^ 32) :
    IsHeader (setPrev m p v) p u n v :=
  ⟨(load_store_of_disjoint m v (by omega)).trans h.magic,
    (load_store_of_disjoint m v (by omega)).trans h.used,
    (load_store_of_disjoint m v (by omega)).trans h.next, load_store_self m (p + 8) hv⟩

theorem IsHeader.setUsed (h : IsHeader m p u n q) (v : Bool) :
    IsHeader (setUsed m p v.toNat) p v n q :=
  ⟨(load_store_of_disjoint m _ (by omega)).trans h.magic,
    load_store_self m (p + 2) (by cases v <;> decide),
    (load_store_of_disjoint m _ (by omega)).trans h.next,
    (load_store_of_disjoint m _ (by omega)).trans h.prev⟩

theorem IsHeader.setMagic (h : IsHeader m p u n q) : IsHeader (setMagic m p heapMagic) p u n q :=
  ⟨load_store_self m p (by decide), (load_store_of_disjoint m _ (by omega)).trans h.used,
    (load_store_of_disjoint m _ (by omega)).trans h.next,
    (load_store_of_disjoint m _ (by omega)).trans h.prev⟩

theorem isHeader_write (m : Mem) (p : ℕ) (u : Bool) (hn : n < 2 ^ 32) (hq : q < 2 ^ 32) :
    IsHeader (SmallMem.setPrev (SmallMem.setNext (SmallMem.setUsed (SmallMem.setMagic m p heapMagic)
      p u.toNat) p n) p q) p u n q := by
  have hu : u.toNat < 256 ^ 2 := by cases u <;> decide
  have hmagic : heapMagic < 256 ^ 2 := by decide
  constructor <;>
    simp (disch := omega) only [magicOf, usedOf, nextOf, prevOf, SmallMem.setMagic, SmallMem.setUsed,
      SmallMem.setNext, SmallMem.setPrev, load_store_of_disjoint, load_store_self]

theorem setMagic_eqOn (m : Mem) {p lo hi : ℕ} (v : ℕ) (h : hi ≤ p ∨ p + 12 ≤ lo) :
    Set.EqOn (setMagic m p v) m (Set.Ico lo hi) := store_eqOn m v (by omega)

theorem setUsed_eqOn (m : Mem) {p lo hi : ℕ} (v : ℕ) (h : hi ≤ p ∨ p + 12 ≤ lo) :
    Set.EqOn (setUsed m p v) m (Set.Ico lo hi) := store_eqOn m v (by omega)

theorem setNext_eqOn (m : Mem) {p lo hi : ℕ} (v : ℕ) (h : hi ≤ p ∨ p + 12 ≤ lo) :
    Set.EqOn (setNext m p v) m (Set.Ico lo hi) := store_eqOn m v (by omega)

theorem setPrev_eqOn (m : Mem) {p lo hi : ℕ} (v : ℕ) (h : hi ≤ p ∨ p + 12 ≤ lo) :
    Set.EqOn (setPrev m p v) m (Set.Ico lo hi) := store_eqOn m v (by omega)

/-! ### Stretches of the chain -/

variable {k : ℕ}

theorem sizeof_spec (hk : k ≤ 30) : 12 ≤ sizeofStructMem k ∧ sizeofStructMem k ≤ 2 ^ 30 ∧
    2 ^ k ∣ sizeofStructMem k := by
  have hpow : 2 ^ k ≤ 2 ^ 30 := Nat.pow_le_pow_right (by omega) hk
  obtain ⟨hlo, hhi⟩ := @alignUp_spec k 12 (by omega)
  refine ⟨hlo, ?_, dvd_alignUp k 12⟩
  have hdvd : 2 ^ k ∣ 2 ^ 30 := Nat.pow_dvd_pow 2 hk
  by_contra hlt
  have := add_le_of_dvd hdvd (dvd_alignUp k 12) (not_le.mp hlt)
  unfold sizeofStructMem at hlt
  omega

/-- The offset of the last block of a stretch from `p` on, or of the block before it. -/
def lastStart : ℕ → ℕ → List (Tile ℕ) → ℕ
  | prev, _, [] => prev
  | _, p, b :: bs => lastStart p (p + b.len) bs

/-- The headers of the stretch from `p` on, behind the block at `prev`. -/
def Seg (k : ℕ) (m : Mem) : ℕ → ℕ → List (Tile ℕ) → Prop
  | _, _, [] => True
  | prev, p, b :: bs =>
    IsHeader m p b.label.isSome (p + b.len) prev ∧ sizeofStructMem k ≤ b.len ∧ Seg k m p (p + b.len) bs

theorem lastStart_append (q p : ℕ) (xs : List (Tile ℕ)) (b : Tile ℕ) :
    lastStart q p (xs ++ [b]) = p + total xs := by
  induction xs generalizing q p with
  | nil => rfl
  | cons c xs ih =>
    rw [List.cons_append, lastStart, ih, total]
    omega

theorem seg_append {xs ys : List (Tile ℕ)} : Seg k m q p (xs ++ ys) ↔
    Seg k m q p xs ∧ Seg k m (lastStart q p xs) (p + total xs) ys := by
  induction xs generalizing q p with
  | nil => simp [Seg, lastStart, total]
  | cons c xs ih =>
    simp only [List.cons_append, Seg, lastStart, total, ih, and_assoc, Nat.add_assoc]

theorem Seg.congr (hk : k ≤ 30) {bs : List (Tile ℕ)} (h : Seg k m q p bs)
    (heq : Set.EqOn m m' (Set.Ico p (p + total bs))) : Seg k m' q p bs := by
  induction bs generalizing q p with
  | nil => trivial
  | cons b bs ih =>
    obtain ⟨hhead, hlen, hrest⟩ := h
    have hsize := (sizeof_spec hk).1
    rw [total] at heq
    refine ⟨hhead.congr fun x hx => heq ⟨hx.1, ?_⟩, hlen, ih hrest fun x hx => heq ⟨?_, ?_⟩⟩
    · have := hx.2
      omega
    · have := hx.1
      omega
    · have := hx.2
      omega

theorem Seg.setPrev (hk : k ≤ 30) {v : ℕ} {bs : List (Tile ℕ)} (h : Seg k m q p bs) (hv : v < 2 ^ 32) :
    Seg k (setPrev m p v) v p bs := by
  cases bs with
  | nil => trivial
  | cons b bs =>
    obtain ⟨hhead, hlen, hrest⟩ := h
    have hsize := (sizeof_spec hk).1
    refine ⟨hhead.setPrev hv, hlen, hrest.congr hk (setPrev_eqOn m v (Or.inr ?_)).symm⟩
    omega

/-! ### The chain of a heap -/

structure Shape (k : ℕ) (h : Heap) (bs : List (Tile ℕ)) : Prop where
  seg : Seg k h.mem 0 0 bs
  total_eq : total bs = h.heapEnd k
  bound : h.heapPtr + h.heapEnd k + sizeofStructMem k < 2 ^ 32
  aligned : ∀ b ∈ bs, 2 ^ k ∣ b.len
  heapAligned : 2 ^ k ∣ h.heapPtr
  minSize_le : minSizeAligned k ≤ h.memSizeAligned
  lfree : h.lfree = h.heapEnd k ∨ ∃ b, (h.lfree, b) ∈ place 0 bs

variable {h : Heap} {xs ys : List (Tile ℕ)} {a b : Tile ℕ}

theorem Shape.cons (hs : Shape k h (xs ++ b :: ys)) :
    Seg k h.mem 0 0 xs ∧
    IsHeader h.mem (total xs) b.label.isSome (total xs + b.len) (lastStart 0 0 xs) ∧
    sizeofStructMem k ≤ b.len ∧ Seg k h.mem (total xs) (total xs + b.len) ys ∧
    total xs + b.len + total ys = h.heapEnd k := by
  obtain ⟨hxs, hhead, hlen, hys⟩ := seg_append.mp hs.seg
  rw [Nat.zero_add] at hhead hys
  have htotal := hs.total_eq
  rw [total_append, total] at htotal
  exact ⟨hxs, hhead, hlen, hys, by omega⟩

theorem Shape.middle (hs : Shape k h (xs ++ [b] ++ ys)) :
    Seg k h.mem 0 0 xs ∧
    IsHeader h.mem (total xs) b.label.isSome (total xs + b.len) (lastStart 0 0 xs) ∧
    sizeofStructMem k ≤ b.len ∧ Seg k h.mem (total xs) (total xs + b.len) ys ∧
    total xs + b.len + total ys = h.heapEnd k := by
  rw [List.append_assoc] at hs
  exact hs.cons

theorem Shape.lastStart_lt (hs : Shape k h (xs ++ [b] ++ ys)) : lastStart 0 0 xs < 2 ^ 32 := by
  obtain ⟨-, hhead, -⟩ := hs.middle
  rw [← hhead.prev]
  exact load_lt 4 h.mem _

theorem Shape.replace {mid mid' : List (Tile ℕ)} {h' : Heap} (hk : k ≤ 30)
    (hs : Shape k h (xs ++ mid ++ ys)) (hptr : h'.heapPtr = h.heapPtr)
    (hsize : h'.memSizeAligned = h.memSizeAligned)
    (hxs : Set.EqOn h.mem h'.mem (Set.Ico 0 (total xs)))
    (hmid : Seg k h'.mem (lastStart 0 0 xs) (total xs) mid')
    (hys : Seg k h'.mem (lastStart (lastStart 0 0 xs) (total xs) mid') (total xs + total mid') ys)
    (htotal : total mid' = total mid) (haligned : ∀ b ∈ mid', 2 ^ k ∣ b.len)
    (hlfree : h'.lfree = h'.heapEnd k ∨ ∃ b, (h'.lfree, b) ∈ place 0 (xs ++ mid' ++ ys)) :
    Shape k h' (xs ++ mid' ++ ys) := by
  have hend : h'.heapEnd k = h.heapEnd k := by rw [Heap.heapEnd, hsize, Heap.heapEnd]
  refine ⟨?_, ?_, ?_, fun b hb => ?_, ?_, ?_, hlfree⟩
  · have hseg := (seg_append.mp (seg_append.mp hs.seg).1).1
    rw [seg_append, seg_append, Nat.zero_add]
    refine ⟨⟨hseg.congr hk (by rwa [Nat.zero_add]), hmid⟩, ?_⟩
    have hlast : lastStart 0 0 (xs ++ mid') = lastStart (lastStart 0 0 xs) (total xs) mid' := by
      cases mid' using List.reverseRecOn with
      | nil => simp [lastStart]
      | append_singleton l c _ =>
        rw [← List.append_assoc, lastStart_append, lastStart_append, total_append]
        omega
    rw [hlast, Nat.zero_add, total_append]
    exact hys
  · rw [hend, ← hs.total_eq]
    simp [htotal]
  · rw [hptr, hend]
    exact hs.bound
  · rw [List.mem_append, List.mem_append] at hb
    rcases hb with (hb | hb) | hb
    · exact hs.aligned b (by simp [hb])
    · exact haligned b hb
    · exact hs.aligned b (by simp [hb])
  · rw [hptr]
    exact hs.heapAligned
  · rw [hsize]
    exact hs.minSize_le

theorem combine_shape (hk : k ≤ 30) (hs : Shape k h (xs ++ [a, b] ++ ys)) (ha : a.label = none) :
    Shape k (combine h (total xs) (total xs + a.len)) (xs ++ [⟨a.len + b.len, none⟩] ++ ys) := by
  have hsize := (sizeof_spec hk).1
  have hs' := hs
  rw [List.append_assoc, List.cons_append, List.singleton_append] at hs'
  obtain ⟨-, hahead, halen, ⟨hbhead, hblen, hys⟩, htotal⟩ := hs'.cons
  have hbound := hs.bound
  rw [total] at htotal
  have hn : nextOf h.mem (total xs + a.len) = total xs + a.len + b.len := hbhead.next
  have hn' : nextOf (setNext h.mem (total xs) (total xs + a.len + b.len)) (total xs + a.len) =
      total xs + a.len + b.len :=
    (hbhead.congr (setNext_eqOn h.mem _ (Or.inr (by omega))).symm).next
  have hmem : (combine h (total xs) (total xs + a.len)).mem =
      setPrev (setNext h.mem (total xs) (total xs + a.len + b.len)) (total xs + a.len + b.len)
        (total xs) := by
    simp only [combine, hn, hn']
  refine hs.replace hk rfl rfl ?_ ?_ ?_ ?_ ?_ ?_
  · rw [hmem]
    exact ((setPrev_eqOn _ _ (Or.inl (by omega))).trans (setNext_eqOn _ _ (Or.inl le_rfl))).symm
  · rw [hmem]
    refine ⟨?_, by show sizeofStructMem k ≤ a.len + b.len; omega, trivial⟩
    rw [ha] at hahead
    have hnext := hahead.setNext (v := total xs + (a.len + b.len)) (by omega)
    rw [← Nat.add_assoc] at hnext ⊢
    exact hnext.congr (setPrev_eqOn _ _ (Or.inl (by omega))).symm
  · rw [hmem]
    simp only [lastStart, total, ← Nat.add_assoc, Nat.add_zero]
    exact (hys.congr hk (setNext_eqOn _ _ (Or.inr (by omega))).symm).setPrev hk (by omega)
  · simp only [total]
    omega
  · intro c hc
    rw [List.mem_singleton.mp hc]
    exact Nat.dvd_add (hs.aligned a (by simp)) (hs.aligned b (by simp))
  · have hend : (combine h (total xs) (total xs + a.len)).heapEnd k = h.heapEnd k := rfl
    rw [hend]
    simp only [combine]
    split
    · exact Or.inr ⟨⟨a.len + b.len, none⟩, by simp [place]⟩
    · rename_i hne
      rcases hs.lfree with hl | ⟨c, hc⟩
      · exact Or.inl hl
      · refine Or.inr (exists_mem_place_replace (by simp only [total]; omega) (fun d hd => ?_) hc)
        simp only [place, List.mem_cons, List.not_mem_nil, or_false, Prod.mk.injEq, Nat.zero_add] at hd ⊢
        rcases hd with ⟨hd, -⟩ | ⟨hd, -⟩
        · exact ⟨_, hd, rfl⟩
        · exact absurd hd hne

theorem splitBlock_keeps (k : ℕ) (h : Heap) (p q : ℕ) :
    (splitBlock k h p q).heapPtr = h.heapPtr ∧
      (splitBlock k h p q).memSizeAligned = h.memSizeAligned ∧ (splitBlock k h p q).lfree = h.lfree := by
  simp only [splitBlock, and_self]

theorem splitBlock_shape (hk : k ≤ 30) {l₁ l₂ : ℕ} (hs : Shape k h (xs ++ [b] ++ ys))
    (hlen : l₁ + l₂ = b.len) (h₁ : sizeofStructMem k ≤ l₁) (h₂ : sizeofStructMem k ≤ l₂)
    (ha₁ : 2 ^ k ∣ l₁) (ha₂ : 2 ^ k ∣ l₂) :
    Shape k (splitBlock k h (total xs) (total xs + l₁)) (xs ++ [⟨l₁, b.label⟩, ⟨l₂, none⟩] ++ ys) := by
  have hsize := (sizeof_spec hk).1
  obtain ⟨-, hhead, -, hys, htotal⟩ := hs.middle
  have hbound := hs.bound
  have hlast := hs.lastStart_lt
  obtain ⟨m₁, hm₁⟩ : ∃ m₁, m₁ = setPrev (setNext (setUsed (setMagic h.mem (total xs + l₁) heapMagic)
    (total xs + l₁) 0) (total xs + l₁) (total xs + b.len)) (total xs + l₁) (total xs) := ⟨_, rfl⟩
  have hnew : IsHeader m₁ (total xs + l₁) false (total xs + b.len) (total xs) := by
    rw [hm₁]
    exact isHeader_write h.mem (total xs + l₁) false (by omega) (by omega)
  -- the new header lies within the data of the block
  have hframe : ∀ lo hi, hi ≤ total xs + l₁ ∨ total xs + l₁ + 12 ≤ lo →
      Set.EqOn h.mem m₁ (Set.Ico lo hi) := by
    intro lo hi hout
    rw [hm₁]
    exact ((setPrev_eqOn _ _ hout).trans ((setNext_eqOn _ _ hout).trans
      ((setUsed_eqOn _ _ hout).trans (setMagic_eqOn _ _ hout)))).symm
  obtain ⟨m₂, hm₂⟩ : ∃ m₂, m₂ = setNext m₁ (total xs) (total xs + l₁) := ⟨_, rfl⟩
  have hset : ∀ lo hi, hi ≤ total xs ∨ total xs + 12 ≤ lo → Set.EqOn m₁ m₂ (Set.Ico lo hi) := by
    intro lo hi hout
    rw [hm₂]
    exact (setNext_eqOn m₁ _ hout).symm
  have hnew₂ : IsHeader m₂ (total xs + l₁) false (total xs + b.len) (total xs) :=
    hnew.congr (hset _ _ (Or.inr (by omega)))
  have hn : nextOf m₂ (total xs + l₁) = total xs + b.len := hnew₂.next
  have hend : add 32 h.memSizeAligned (sizeofStructMem k) = h.heapEnd k :=
    add_of_lt (by rw [← Heap.heapEnd]; omega)
  have hmem : (splitBlock k h (total xs) (total xs + l₁)).mem =
      if total xs + b.len ≠ h.heapEnd k then setPrev m₂ (total xs + b.len) (total xs + l₁) else m₂ := by
    simp only [splitBlock, hhead.next, ← hm₁, ← hm₂, hn, hend]
  have hlow : ∀ lo hi, hi ≤ total xs + b.len →
      Set.EqOn m₂ (splitBlock k h (total xs) (total xs + l₁)).mem (Set.Ico lo hi) := by
    intro lo hi hout
    rw [hmem]
    split
    · exact (setPrev_eqOn _ _ (Or.inl hout)).symm
    · exact Set.eqOn_refl _ _
  obtain ⟨hptr, hsize', hlfree⟩ := splitBlock_keeps k h (total xs) (total xs + l₁)
  refine hs.replace hk hptr hsize' ?_ ?_ ?_ ?_ ?_ ?_
  · exact (hframe 0 (total xs) (Or.inl (by omega))).trans
      ((hset 0 (total xs) (Or.inl le_rfl)).trans (hlow 0 (total xs) (by omega)))
  · refine ⟨?_, h₁, ?_, h₂, trivial⟩
    · have hhead₁ := hhead.congr (hframe (total xs) (total xs + 12) (Or.inl (by omega)))
      have hhead₂ : IsHeader m₂ (total xs) b.label.isSome (total xs + l₁) (lastStart 0 0 xs) := by
        rw [hm₂]
        exact hhead₁.setNext (by omega)
      exact hhead₂.congr (hlow _ _ (by omega))
    · have hnew₃ := hnew₂.congr (hlow _ _ (by omega))
      rwa [show total xs + b.len = total xs + l₁ + l₂ by omega] at hnew₃
  · have hys₂ : Seg k m₂ (total xs) (total xs + b.len) ys :=
      hys.congr hk ((hframe _ _ (Or.inr (by omega))).trans (hset _ _ (Or.inr (by omega))))
    simp only [lastStart, total, Nat.add_zero, hlen]
    rw [hmem]
    split
    · exact hys₂.setPrev hk (by omega)
    · -- the last block was cut
      rename_i hlastBlock
      cases ys with
      | nil => trivial
      | cons c ys =>
        have hc := hys.2.1
        rw [total] at htotal
        omega
  · simp only [total]
    omega
  · intro c hc
    simp only [List.mem_cons, List.not_mem_nil, or_false] at hc
    rcases hc with rfl | rfl
    · exact ha₁
    · exact ha₂
  · rw [hlfree, Heap.heapEnd, hsize', ← Heap.heapEnd]
    rcases hs.lfree with hl | ⟨c, hc⟩
    · exact Or.inl hl
    · refine Or.inr (exists_mem_place_replace (by simp only [total]; omega) (fun d hd => ?_) hc)
      simp only [place, List.mem_cons, List.not_mem_nil, or_false, Prod.mk.injEq] at hd ⊢
      exact ⟨_, Or.inl ⟨hd.1, rfl⟩⟩

theorem Shape.rewrite (hk : k ≤ 30) {h' : Heap} {label : Option ℕ} (hs : Shape k h (xs ++ [b] ++ ys))
    (hptr : h'.heapPtr = h.heapPtr) (hsize : h'.memSizeAligned = h.memSizeAligned)
    (hlfree : h'.lfree = h.lfree)
    (hout : ∀ lo hi, hi ≤ total xs ∨ total xs + b.len ≤ lo → Set.EqOn h.mem h'.mem (Set.Ico lo hi))
    (hhead : IsHeader h'.mem (total xs) label.isSome (total xs + b.len) (lastStart 0 0 xs)) :
    Shape k h' (xs ++ [⟨b.len, label⟩] ++ ys) := by
  obtain ⟨-, -, hlen, hys, -⟩ := hs.middle
  refine hs.replace hk hptr hsize (hout _ _ (Or.inl le_rfl)) ⟨hhead, hlen, trivial⟩ ?_ rfl ?_ ?_
  · simp only [lastStart, total, Nat.add_zero]
    exact hys.congr hk (hout _ _ (Or.inr le_rfl))
  · intro c hc
    rw [List.mem_singleton.mp hc]
    exact hs.aligned b (by simp)
  · rw [hlfree, Heap.heapEnd, hsize]
    rcases hs.lfree with hl | ⟨c, hc⟩
    · exact Or.inl hl
    · refine Or.inr (exists_mem_place_replace (by simp only [total]) (fun d hd => ?_) hc)
      simp only [place, List.mem_singleton, Prod.mk.injEq] at hd ⊢
      exact ⟨_, hd.1, rfl⟩

/-! ### `lfree` -/

theorem Seg.len_le {bs : List (Tile ℕ)} (h : Seg k m q p bs) : ∀ c ∈ bs, sizeofStructMem k ≤ c.len := by
  induction bs generalizing q p with
  | nil => simp
  | cons b bs ih => exact List.forall_mem_cons.mpr ⟨h.2.1, ih h.2.2⟩

theorem Shape.pos {bs : List (Tile ℕ)} (hk : k ≤ 30) (hs : Shape k h bs) : ∀ c ∈ bs, 0 < c.len := by
  intro c hc
  have h12 := (sizeof_spec hk).1
  have hlen := hs.seg.len_le c hc
  omega

theorem vacant_lt_total (hpos : ∀ c ∈ xs, 0 < c.len) {q : ℕ} (hq : q ∈ vacant 0 xs) : q < total xs := by
  obtain ⟨us, c, vs, rfl, rfl, -⟩ := mem_vacant hq
  have hc := hpos c (by simp)
  rw [total_middle]
  omega

/-- `lfree` is the first free block, or `heap_end`. -/
def Low (k : ℕ) (h : Heap) (bs : List (Tile ℕ)) : Prop := h.lfree = (vacant 0 bs).headD (h.heapEnd k)

theorem low_iff_of_none (hb : b.label = none) :
    Low k h (xs ++ [b] ++ ys) ↔ h.lfree = (vacant 0 xs).headD (total xs) := by
  rw [Low, List.append_assoc, List.singleton_append, vacant_append, Nat.zero_add, vacant_cons_of_none ys hb]
  cases vacant 0 xs <;> rfl

theorem low_iff_of_some (hb : b.label.isSome = true) : Low k h (xs ++ [b] ++ ys) ↔
    h.lfree = (vacant 0 xs).headD ((vacant (total xs + b.len) ys).headD (h.heapEnd k)) := by
  rw [Low, List.append_assoc, List.singleton_append, vacant_append, Nat.zero_add, vacant_cons_of_some ys hb]
  cases vacant 0 xs <;> rfl

theorem headD_vacant_lt (hpos : ∀ c ∈ xs, 0 < c.len) {n : ℕ} (hne : vacant 0 xs ≠ []) :
    (vacant 0 xs).headD n < total xs := by
  cases hv : vacant 0 xs with
  | nil => exact absurd hv hne
  | cons q l => exact vacant_lt_total hpos (by rw [hv]; exact List.mem_cons_self)

/-! ### `plug_holes` -/

theorem usedOf_eq_zero_iff {used : Bool} {next prev : ℕ} (hh : IsHeader m p used next prev) :
    usedOf m p = 0 ↔ used = false := by
  rw [hh.used]
  cases used <;> decide

/-- What `plug_holes` does not change: the blocks in use, and all of them but the chain. -/
structure Plugged (h h' : Heap) (bs bs' : List (Tile ℕ)) : Prop where
  held_eq : held 0 bs' = held 0 bs
  usedMem_eq : h'.usedMem = h.usedMem
  heapPtr_eq : h'.heapPtr = h.heapPtr

/-- `lfree` is the lowest free block, or will be when `b` is joined to the block behind it. -/
def LowJoined (k : ℕ) (h : Heap) (xs : List (Tile ℕ)) (b : Tile ℕ) (ys : List (Tile ℕ)) : Prop :=
  Low k h (xs ++ [b] ++ ys) ∨ vacant 0 xs = [] ∧ h.lfree = total xs + b.len ∧ ∃ c ∈ ys.head?, c.label = none

/-- Joining two free blocks makes `lfree` the lowest one when it was so before, or when it was the second of them and
there is none before the first. -/
theorem combine_low (hpos : ∀ c ∈ xs, 0 < c.len) (ha : a.label = none) (hlen : 0 < a.len) :
    Low k (combine h (total xs) (total xs + a.len)) (xs ++ [⟨a.len + b.len, none⟩] ++ ys) ↔
      Low k h (xs ++ [a] ++ ys) ∨ vacant 0 xs = [] ∧ h.lfree = total xs + a.len := by
  rw [low_iff_of_none rfl, low_iff_of_none ha, combine]
  by_cases hne : vacant 0 xs = []
  · simp only [hne, List.headD_nil, true_and]
    split
    · rename_i hl
      exact iff_of_true rfl (Or.inr hl)
    · rename_i hl
      exact ⟨Or.inl, fun hor => hor.resolve_right hl⟩
  · have hlt := headD_vacant_lt (n := total xs) hpos hne
    simp only [hne, false_and, or_false]
    split
    · exact iff_of_false (by omega) (by omega)
    · exact Iff.rfl

theorem plugForward_spec (hk : k ≤ 30) (hs : Shape k h (xs ++ [b] ++ ys)) (hb : b.label = none)
    (hys : Compact ys) : ∃ b' ys', Shape k (plugForward k h (total xs)) (xs ++ [b'] ++ ys') ∧
      Plugged h (plugForward k h (total xs)) (xs ++ [b] ++ ys) (xs ++ [b'] ++ ys') ∧
      b'.label = none ∧ Compact ys' ∧ (∀ c ∈ ys'.head?, c.label.isSome = true) ∧
      (Low k (plugForward k h (total xs)) (xs ++ [b'] ++ ys') ↔ LowJoined k h xs b ys) := by
  have hsize := (sizeof_spec hk).1
  have hxs : ∀ c ∈ xs, 0 < c.len := fun c hc => hs.pos hk c (by simp [hc])
  obtain ⟨-, hhead, hlen, hseg, htotal⟩ := hs.middle
  simp only [plugForward, hhead.next]
  cases ys with
  | nil =>
    rw [total] at htotal
    rw [if_neg (by omega)]
    exact ⟨b, [], hs, ⟨rfl, rfl, rfl⟩, hb, hys, fun c hc => (by cases hc), by simp [LowJoined]⟩
  | cons c ys =>
    obtain ⟨hc, hclen, -⟩ := hseg
    rw [total] at htotal
    have hused := usedOf_eq_zero_iff hc
    cases hlabel : c.label with
    | some n =>
      rw [if_neg fun hfree => absurd (hused.mp hfree.2.1) (by simp [hlabel])]
      exact ⟨b, c :: ys, hs, ⟨rfl, rfl, rfl⟩, hb, hys, by simp [hlabel], by simp [LowJoined, hlabel]⟩
    | none =>
      rw [if_pos ⟨by omega, hused.mpr (by simp [hlabel]), by omega⟩]
      have hjoin := @combine_shape k h xs ys b c hk (by simpa using hs) hb
      refine ⟨⟨b.len + c.len, none⟩, ys, hjoin, ⟨?_, rfl, rfl⟩, rfl, ?_, fun d hd => ?_, ?_⟩
      · rw [held_join xs ys hb hlabel]
        simp
      · exact (List.isChain_cons.mp hys).2
      · have := (List.isChain_cons.mp hys).1 d hd
        simpa [hlabel] using this
      · rw [combine_low hxs hb (by omega), LowJoined, low_iff_of_none hb, low_iff_of_none hb]
        simp [hlabel]

theorem plugBackward_spec (hk : k ≤ 30) (hs : Shape k h (xs ++ [b] ++ ys)) (hb : b.label = none)
    (hxs : Compact xs) : ∃ xs' b', Shape k (plugBackward h (total xs)) (xs' ++ [b'] ++ ys) ∧
      Plugged h (plugBackward h (total xs)) (xs ++ [b] ++ ys) (xs' ++ [b'] ++ ys) ∧
      b'.label = none ∧ Compact xs' ∧ (∀ c ∈ xs'.getLast?, c.label.isSome = true) ∧
      (Low k h (xs ++ [b] ++ ys) → Low k (plugBackward h (total xs)) (xs' ++ [b'] ++ ys)) ∧
      ((∀ c ∈ xs.getLast?, c.label.isSome = true) →
        Low k (plugBackward h (total xs)) (xs' ++ [b'] ++ ys) → Low k h (xs ++ [b] ++ ys)) := by
  have hsize := (sizeof_spec hk).1
  obtain ⟨hseg, hhead, -⟩ := hs.middle
  simp only [plugBackward, hhead.prev]
  cases xs using List.reverseRecOn with
  | nil =>
    rw [if_neg (by simp [lastStart, total])]
    exact ⟨[], b, hs, ⟨rfl, rfl, rfl⟩, hb, hxs, fun c hc => (by cases hc), id, fun _ => id⟩
  | append_singleton xs c _ =>
    obtain ⟨-, hc, hclen, -⟩ := seg_append.mp hseg
    rw [Nat.zero_add] at hc
    have hused := usedOf_eq_zero_iff hc
    have hchain := List.isChain_append.mp hxs
    rw [lastStart_append, Nat.zero_add]
    cases hlabel : c.label with
    | some n =>
      rw [if_neg fun hfree => absurd (hused.mp hfree.2) (by simp [hlabel])]
      exact ⟨xs ++ [c], b, hs, ⟨rfl, rfl, rfl⟩, hb, hxs, by simp [hlabel], id, fun _ => id⟩
    | none =>
      have htotal : total (xs ++ [c]) = total xs + c.len := by simp [total]
      rw [if_pos ⟨by omega, hused.mpr (by simp [hlabel])⟩, htotal]
      have hjoin := @combine_shape k h xs ys c b hk (by simpa using hs) hlabel
      have hpos : ∀ d ∈ xs, 0 < d.len := fun d hd => hs.pos hk d (by simp [hd])
      refine ⟨xs, ⟨c.len + b.len, none⟩, hjoin, ⟨?_, rfl, rfl⟩, rfl, hchain.1, fun d hd => ?_, fun hlow => ?_,
        fun hused => ?_⟩
      · rw [held_join xs ys hlabel hb]
        simp
      · have := hchain.2.2 d hd c (by simp)
        simpa [hlabel] using this
      · refine (combine_low hpos hlabel (by omega)).mpr (Or.inl ?_)
        rw [low_iff_of_none hb, vacant_append, vacant_cons_of_none [] hlabel, Nat.zero_add] at hlow
        rw [low_iff_of_none hlabel, hlow]
        cases vacant 0 xs <;> rfl
      · have := hused c (by simp)
        simp [hlabel] at this

/-- After `plug_holes` of a free block, no two neighbours are free. -/
theorem plugHoles_spec (hk : k ≤ 30) (hs : Shape k h (xs ++ [b] ++ ys)) (hb : b.label = none)
    (hxs : Compact xs) (hys : Compact ys) : ∃ h' bs', plugHoles k h (total xs) = some h' ∧
      Shape k h' bs' ∧ Plugged h h' (xs ++ [b] ++ ys) bs' ∧ Compact bs' ∧
      (LowJoined k h xs b ys → Low k h' bs') ∧
      ((∀ c ∈ xs.getLast?, c.label.isSome = true) → Low k h' bs' → LowJoined k h xs b ys) := by
  have hsize := (sizeof_spec hk).1
  obtain ⟨-, hhead, hlen, -, htotal⟩ := hs.middle
  obtain ⟨b₁, ys', hs₁, hplug₁, hb₁, hys', hnext, hlow₁⟩ := plugForward_spec hk hs hb hys
  obtain ⟨xs', b₂, hs₂, hplug₂, hb₂, hxs', hprev, hlow₂, hlow₂'⟩ := plugBackward_spec hk hs₁ hb₁ hxs
  refine ⟨_, _, if_pos ⟨by omega, (usedOf_eq_zero_iff hhead).mpr (by simp [hb])⟩, hs₂,
    ⟨hplug₂.held_eq.trans hplug₁.held_eq, hplug₂.usedMem_eq.trans hplug₁.usedMem_eq,
      hplug₂.heapPtr_eq.trans hplug₁.heapPtr_eq⟩, ?_, fun hlow => hlow₂ (hlow₁.mpr hlow),
    fun hused hlow => hlow₁.mp (hlow₂' hused hlow)⟩
  rw [List.append_assoc, List.singleton_append, compact_append_cons]
  exact ⟨hxs', hys', fun c hc => Or.inl (hprev c hc), fun c hc => Or.inr (hnext c hc)⟩

end RtThread.Memory.SmallMem
