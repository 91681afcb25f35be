import RtThread.Memory.SmallMemBlocks

/-!
# The functions of the small-memory heap

`Inv` adds to the chain that no two neighbours are free, that a block in use holds what was
asked for, and that `used_mem` is the length of the blocks in use. Each function is described
by what it does to the blocks in use, `held 0 bs`.
-/

namespace RtThread.Memory.SmallMem

open RtThread.Lib.Bytes RtThread.Lib.Word RtThread.Lib.Tiling

structure Inv (k : ℕ) (h : Heap) (bs : List (Tile ℕ)) : Prop where
  shape : Shape k h bs
  compact : Compact bs
  fits : ∀ x ∈ held 0 bs, sizeofStructMem k < x.2.len ∧
    ∀ n, x.2.label = some n → sizeofStructMem k + n ≤ x.2.len
  usedMem_eq : h.usedMem = lengths (held 0 bs)

variable {k : ℕ} {h : Heap} {bs xs ys : List (Tile ℕ)} {b : Tile ℕ}

/-! ### The loops -/

theorem dataSize_eq (hs : Shape k h (xs ++ b :: ys)) :
    dataSize k h.mem (total xs) = b.len - sizeofStructMem k := by
  obtain ⟨-, hhead, hlen, -, htotal⟩ := hs.cons
  have hbound := hs.bound
  rw [dataSize, hhead.next, add_of_lt (by omega), sub_of_le (by omega) (by omega)]
  omega

/-- The search ends with the first free block that is large enough and begins before `mem_size_aligned - size`. -/
theorem searchLoop_eq {size fuel : ℕ} (hsize : size ≤ h.memSizeAligned) (hs : Shape k h (xs ++ ys))
    (hfuel : ys.length < fuel) : searchLoop k h size fuel (total xs) = some ((vacant (total xs) ys).find? fun p =>
      p < h.memSizeAligned - size ∧ size ≤ dataSize k h.mem p) := by
  have hbound := hs.bound
  have hlimit : sub 32 h.memSizeAligned size = h.memSizeAligned - size :=
    sub_of_le hsize (by rw [Heap.heapEnd] at hbound; omega)
  induction ys generalizing xs fuel with
  | nil =>
    obtain ⟨n, rfl⟩ := Nat.exists_eq_add_of_lt hfuel
    have htotal := hs.total_eq
    rw [List.append_nil, Heap.heapEnd] at htotal
    simp only [searchLoop, hlimit]
    rw [if_neg (by omega)]
    rfl
  | cons b ys ih =>
    obtain ⟨n, rfl⟩ : ∃ n, fuel = n + 1 := ⟨fuel - 1, by have := Nat.zero_lt_of_lt hfuel; omega⟩
    obtain ⟨-, hhead, hlen, -⟩ := hs.cons
    have hrest := @ih (xs ++ [b]) n (by simpa using hs) (by simpa using hfuel)
    rw [show total (xs ++ [b]) = total xs + b.len by simp [total]] at hrest
    have hused := usedOf_eq_zero_iff hhead
    simp only [searchLoop, hlimit, hhead.next, hrest]
    split
    · rename_i hlt
      cases hlabel : b.label with
      | none =>
        rw [hlabel] at hused
        rw [vacant_cons_of_none ys hlabel, List.find?_cons]
        by_cases hfit : size ≤ dataSize k h.mem (total xs)
        · rw [if_pos ⟨hused.mpr rfl, hfit⟩]
          simp [hlt, hfit]
        · rw [if_neg fun hand => hfit hand.2]
          simp [hfit]
      | some n =>
        rw [hlabel] at hused
        rw [vacant_cons_of_some ys (by rw [hlabel]; rfl), if_neg fun hand => by simpa using hused.mp hand.1]
    · -- the blocks behind begin no earlier
      rename_i hge
      refine congrArg some (List.find?_eq_none.mpr fun q hq => ?_).symm
      obtain ⟨us, c, vs, -, rfl, -⟩ := mem_vacant hq
      simp only [decide_eq_true_eq, not_and]
      omega

/-- The loop ends with the next free block, or with `heap_end`. -/
theorem lfreeLoop_eq {fuel : ℕ} (hk : k ≤ 30) (hs : Shape k h (xs ++ ys)) (hfuel : ys.length < fuel) :
    lfreeLoop k h fuel (total xs) = some ((vacant (total xs) ys).headD (h.heapEnd k)) := by
  induction ys generalizing xs fuel with
  | nil =>
    obtain ⟨n, rfl⟩ := Nat.exists_eq_add_of_lt hfuel
    have htotal := hs.total_eq
    rw [List.append_nil] at htotal
    simp only [lfreeLoop]
    rw [if_neg (by simp [htotal]), vacant_nil, List.headD_nil, htotal]
  | cons b ys ih =>
    obtain ⟨n, rfl⟩ : ∃ n, fuel = n + 1 := ⟨fuel - 1, by have := Nat.zero_lt_of_lt hfuel; omega⟩
    have hpos := hs.pos hk b (by simp)
    obtain ⟨-, hhead, hlen, -, htotal⟩ := hs.cons
    have hrest := @ih (xs ++ [b]) n (by simpa using hs) (by simpa using hfuel)
    rw [show total (xs ++ [b]) = total xs + b.len by simp [total]] at hrest
    have hused := usedOf_eq_zero_iff hhead
    simp only [lfreeLoop, hhead.next, hrest]
    cases hlabel : b.label with
    | none =>
      rw [hlabel] at hused
      rw [if_neg fun hand => hand.1 (hused.mpr rfl), vacant_cons_of_none ys hlabel, List.headD_cons]
    | some n =>
      rw [hlabel] at hused
      rw [vacant_cons_of_some ys (by rw [hlabel]; rfl), if_pos ⟨fun hzero => by simpa using hused.mp hzero, by omega⟩]

theorem Shape.lfree_split (hs : Shape k h bs) : ∃ xs ys, bs = xs ++ ys ∧ h.lfree = total xs := by
  rcases hs.lfree with hl | ⟨b, hb⟩
  · exact ⟨bs, [], by simp, hl.trans hs.total_eq.symm⟩
  · obtain ⟨xs, ys, hbs, hp⟩ := exists_append_of_mem_place hb
    exact ⟨xs, b :: ys, hbs, by omega⟩

/-! ### Taking and releasing a block -/

theorem Shape.relabel (hk : k ≤ 30) {h' : Heap} (label : Option ℕ) (hs : Shape k h (xs ++ [b] ++ ys))
    (hptr : h'.heapPtr = h.heapPtr) (hsize : h'.memSizeAligned = h.memSizeAligned)
    (hlfree : h'.lfree = h.lfree)
    (hmem : h'.mem = setMagic (setUsed h.mem (total xs) label.isSome.toNat) (total xs) heapMagic) :
    Shape k h' (xs ++ [⟨b.len, label⟩] ++ ys) := by
  obtain ⟨-, hhead, hlen, -⟩ := hs.middle
  have h12 := (sizeof_spec hk).1
  refine hs.rewrite hk hptr hsize hlfree (fun lo hi hout => ?_) ?_
  · rw [hmem]
    have hout' : hi ≤ total xs ∨ total xs + 12 ≤ lo := by omega
    exact ((setMagic_eqOn _ _ hout').trans (setUsed_eqOn _ _ hout')).symm
  · rw [hmem]
    exact (hhead.setUsed label.isSome).setMagic

theorem Shape.len_le (hs : Shape k h (xs ++ [b] ++ ys)) : total xs + b.len ≤ h.heapEnd k := by
  obtain ⟨-, -, -, -, htotal⟩ := hs.middle
  omega

theorem Shape.dvd_total (hs : Shape k h (xs ++ ys)) : 2 ^ k ∣ total xs := by
  have hdvd : ∀ c ∈ xs, 2 ^ k ∣ c.len := fun c hc => hs.aligned c (List.mem_append_left ys hc)
  clear hs
  induction xs with
  | nil => exact Nat.dvd_zero _
  | cons c xs ih =>
    rw [total]
    exact Nat.dvd_add (hdvd c List.mem_cons_self) (ih fun d hd => hdvd d (List.mem_cons_of_mem c hd))

theorem splitBlock_data (hk : k ≤ 30) {size : ℕ} (hs : Shape k h (xs ++ [b] ++ ys)) (hdvd : 2 ^ k ∣ size)
    (hlen : sizeofStructMem k + size + sizeofStructMem k ≤ b.len) :
    Shape k (splitBlock k h (total xs) (total xs + (sizeofStructMem k + size)))
      (xs ++ [⟨sizeofStructMem k + size, b.label⟩] ++
        ([⟨b.len - (sizeofStructMem k + size), none⟩] ++ ys)) := by
  obtain ⟨-, -, hsdvd⟩ := sizeof_spec hk
  have hcut := @splitBlock_shape k h xs ys b hk (sizeofStructMem k + size)
    (b.len - (sizeofStructMem k + size)) hs (by omega) (by omega) (by omega)
    (Nat.dvd_add hsdvd hdvd) (Nat.dvd_sub (hs.aligned b (by simp)) (Nat.dvd_add hsdvd hdvd))
  simpa using hcut

theorem takeBlock_spec (hk : k ≤ 30) {size : ℕ} (hs : Shape k h (xs ++ [b] ++ ys))
    (hlen : sizeofStructMem k + size ≤ b.len) (hdvd : 2 ^ k ∣ size)
    (hused : h.usedMem + b.len < 2 ^ 32) (n : ℕ) :
    ∃ l rest, sizeofStructMem k + size ≤ l ∧ l + total rest = b.len ∧
      (rest = [] ∨ ∃ l', rest = [⟨l', none⟩]) ∧
      Shape k (takeBlock k h (total xs) size) (xs ++ [⟨l, some n⟩] ++ (rest ++ ys)) ∧
      (takeBlock k h (total xs) size).usedMem = h.usedMem + l ∧
      (takeBlock k h (total xs) size).heapPtr = h.heapPtr ∧
      (takeBlock k h (total xs) size).memSizeAligned = h.memSizeAligned ∧
      (takeBlock k h (total xs) size).lfree = h.lfree := by
  obtain ⟨h12, -, hsdvd⟩ := sizeof_spec hk
  have hbound := hs.bound
  have hle := hs.len_le
  have hmin : minSizeAligned k = sizeofStructMem k := rfl
  have hdata : dataSize k h.mem (total xs) = b.len - sizeofStructMem k := by
    rw [List.append_assoc] at hs
    exact dataSize_eq hs
  have hsum : add 32 (add 32 size (sizeofStructMem k)) (minSizeAligned k) =
      size + sizeofStructMem k + sizeofStructMem k := by
    rw [hmin, add_add_of_lt (by omega)]
  by_cases hsplit : add 32 (add 32 size (sizeofStructMem k)) (minSizeAligned k) ≤ dataSize k h.mem (total xs)
  · have hfit := hsplit
    rw [hsum, hdata] at hfit
    have hq : add 32 (add 32 (total xs) (sizeofStructMem k)) size =
        total xs + (sizeofStructMem k + size) := by
      rw [add_add_of_lt (by omega), Nat.add_assoc]
    have hcut := splitBlock_data hk hs hdvd (by omega)
    refine ⟨sizeofStructMem k + size, [⟨b.len - (sizeofStructMem k + size), none⟩], le_rfl, ?_,
      Or.inr ⟨_, rfl⟩, ?_, ?_, ?_, ?_, ?_⟩
    · simp only [total]
      omega
    · refine hcut.relabel hk (some n) ?_ ?_ ?_ ?_ <;>
        simp only [takeBlock, if_pos hsplit, hq, Heap.count, Option.isSome_some, Bool.toNat_true]
    · simp only [takeBlock, if_pos hsplit, Heap.count, splitBlock]
      rw [add_of_lt (show size + sizeofStructMem k < 2 ^ 32 by omega), add_of_lt (by omega),
        Nat.add_comm size]
    · simp only [takeBlock, if_pos hsplit, Heap.count, splitBlock]
    · simp only [takeBlock, if_pos hsplit, Heap.count, splitBlock]
    · simp only [takeBlock, if_pos hsplit, Heap.count, splitBlock]
  · have hnext : nextOf (setUsed h.mem (total xs) 1) (total xs) = total xs + b.len :=
      (hs.middle.2.1.setUsed true).next
    refine ⟨b.len, [], hlen, by simp [total], Or.inl rfl, ?_, ?_, ?_, ?_, ?_⟩
    · refine hs.relabel hk (some n) ?_ ?_ ?_ ?_ <;>
        simp only [takeBlock, if_neg hsplit, Heap.count, Option.isSome_some, Bool.toNat_true]
    · simp only [takeBlock, if_neg hsplit, Heap.count, hnext]
      rw [sub_of_le (by omega) (by omega), Nat.add_sub_cancel_left, add_of_lt (by omega)]
    · simp only [takeBlock, if_neg hsplit, Heap.count]
    · simp only [takeBlock, if_neg hsplit, Heap.count]
    · simp only [takeBlock, if_neg hsplit, Heap.count]

theorem Shape.setLfree (hs : Shape k h bs) {q : ℕ} (hq : q = h.heapEnd k ∨ ∃ b, (q, b) ∈ place 0 bs) :
    Shape k { h with lfree := q } bs :=
  ⟨hs.seg, hs.total_eq, hs.bound, hs.aligned, hs.heapAligned, hs.minSize_le, hq⟩

theorem Shape.next_unused (hs : Shape k h (xs ++ ys)) {q : ℕ} (hq : q = (vacant (total xs) ys).headD (h.heapEnd k)) :
    (q = h.heapEnd k ∨ usedOf h.mem q = 0) ∧ (q = h.heapEnd k ∨ ∃ b, (q, b) ∈ place 0 (xs ++ ys)) := by
  cases hv : vacant (total xs) ys with
  | nil =>
    rw [hv, List.headD_nil] at hq
    exact ⟨Or.inl hq, Or.inl hq⟩
  | cons p l =>
    rw [hv, List.headD_cons] at hq
    have hmem : q ∈ vacant (total xs) ys := by
      rw [hv, hq]
      exact List.mem_cons_self
    obtain ⟨us, b, vs, rfl, hp, hlabel⟩ := mem_vacant hmem
    rw [← List.append_assoc] at hs ⊢
    rw [← total_append] at hp
    have hused := usedOf_eq_zero_iff hs.cons.2.1
    rw [hlabel] at hused
    refine ⟨Or.inr ?_, Or.inr ⟨b, ?_⟩⟩
    · rw [hp]
      exact hused.mpr rfl
    · rw [place_middle, hp, Nat.zero_add]
      simp

theorem advanceLfree_spec (hk : k ≤ 30) (hs : Shape k h (xs ++ ys)) :
    ∃ q, advanceLfree k h (total xs) = some { h with lfree := q } ∧ Shape k { h with lfree := q } (xs ++ ys) ∧
      q = if total xs = h.lfree then (vacant (total xs) ys).headD (h.heapEnd k) else h.lfree := by
  have hfuel := hs.length_lt hk
  rw [List.length_append] at hfuel
  simp only [advanceLfree]
  split
  · rename_i hfirst
    obtain ⟨hfree, hmem⟩ := hs.next_unused rfl
    refine ⟨_, ?_, hs.setLfree hmem, rfl⟩
    rw [← hfirst, lfreeLoop_eq hk hs (by omega), Option.bind_some, if_pos hfree]
  · exact ⟨h.lfree, rfl, hs, rfl⟩

theorem low_take {zs : List (Tile ℕ)} {q : ℕ} (hpos : ∀ c ∈ xs, 0 < c.len) (hb : b.label = none)
    (hlow : Low k h (xs ++ [b] ++ ys))
    (hq : q = if total xs = h.lfree then (vacant (total xs) zs).headD (h.heapEnd k) else h.lfree) :
    q = (vacant 0 (xs ++ zs)).headD (h.heapEnd k) := by
  rw [low_iff_of_none hb] at hlow
  rw [hq, vacant_append, Nat.zero_add]
  by_cases hne : vacant 0 xs = []
  · rw [hne, List.headD_nil] at hlow
    rw [if_pos hlow.symm, hne, List.nil_append]
  · have hlt := headD_vacant_lt (n := total xs) hpos hne
    rw [if_neg (by omega), hlow]
    cases hv : vacant 0 xs with
    | nil => exact absurd hv hne
    | cons p l => rfl

/-- `x` is a new block in use; the others are as before. -/
def Adds (bs bs' : List (Tile ℕ)) (x : ℕ × Tile ℕ) : Prop :=
  ∃ l r, held 0 bs = l ++ r ∧ held 0 bs' = l ++ x :: r

theorem compact_take {l n : ℕ} {rest : List (Tile ℕ)} (hc : Compact (xs ++ [b] ++ ys)) (hb : b.label = none)
    (hrest : rest = [] ∨ ∃ l', rest = [⟨l', none⟩]) :
    Compact (xs ++ [⟨l, some n⟩] ++ (rest ++ ys)) := by
  rw [List.append_assoc, List.singleton_append, compact_append_cons] at hc ⊢
  obtain ⟨hxs, hys, -, hnext⟩ := hc
  refine ⟨hxs, ?_, fun _ _ => Or.inr rfl, fun _ _ => Or.inl rfl⟩
  rcases hrest with rfl | ⟨l', rfl⟩
  · exact hys
  · refine List.isChain_cons.mpr ⟨fun c hc => ?_, hys⟩
    simpa [hb] using hnext c hc

theorem held_take {l n : ℕ} {rest : List (Tile ℕ)} (hl : l + total rest = b.len)
    (hrest : rest = [] ∨ ∃ l', rest = [⟨l', none⟩]) :
    held 0 (xs ++ [⟨l, some n⟩] ++ (rest ++ ys)) =
      held 0 xs ++ (total xs, ⟨l, some n⟩) :: held (total xs + b.len) ys := by
  rw [List.append_assoc, List.singleton_append, held_append, Nat.zero_add,
    held_cons_of_some _ rfl, held_append]
  have hvacant : held (total xs + l) rest = [] := by
    rcases hrest with rfl | ⟨l', rfl⟩
    · rfl
    · exact held_cons_of_none [] rfl
  rw [hvacant, List.nil_append, Nat.add_assoc, hl]

theorem Inv.usedMem_lt (hi : Inv k h (xs ++ [b] ++ ys)) (hb : b.label = none) : h.usedMem + b.len < 2 ^ 32 := by
  have hheld := @held_middle_of_none ℕ 0 b xs ys hb
  have hbound := hi.shape.bound
  have hxs := lengths_held_le 0 xs
  have hys := lengths_held_le (0 + total xs + b.len) ys
  have htotal := hi.shape.total_eq
  simp only [total_append, total] at htotal
  rw [hi.usedMem_eq, hheld, lengths_append]
  omega

theorem take_spec (hk : k ≤ 30) {size n : ℕ} (hi : Inv k h (xs ++ [b] ++ ys)) (hb : b.label = none)
    (hlen : sizeofStructMem k + size ≤ b.len) (hdvd : 2 ^ k ∣ size) (hpos : 0 < size) (hn : n ≤ size) :
    ∃ h' bs' l, advanceLfree k (takeBlock k h (total xs) size) (total xs) = some h' ∧
      mallocAssert k h' (total xs) size ∧ sizeofStructMem k + size ≤ l ∧ Inv k h' bs' ∧
      h'.heapPtr = h.heapPtr ∧ Adds (xs ++ [b] ++ ys) bs' (total xs, ⟨l, some n⟩) ∧
      (Low k h (xs ++ [b] ++ ys) → Low k h' bs') := by
  have hs := hi.shape
  have hbound := hs.bound
  have hheld := @held_middle_of_none ℕ 0 b xs ys hb
  have hused := hi.usedMem_lt hb
  obtain ⟨l, rest, hle, hl, hrest, hs', husedMem, hptr, hmem, hlfree⟩ :=
    takeBlock_spec hk hs hlen hdvd hused n
  have hheld' := @held_take xs ys b l n rest hl hrest
  rw [List.append_assoc xs] at hs'
  obtain ⟨q, hq, hs'', hqeq⟩ := advanceLfree_spec hk hs'
  rw [← List.append_assoc] at hs''
  have hsub := hs''.len_le
  have hendEq : (takeBlock k h (total xs) size).heapEnd k = h.heapEnd k := by
    rw [Heap.heapEnd, hmem, Heap.heapEnd]
  have hxs : 2 ^ k ∣ total xs := hs'.dvd_total
  have hptrDvd : 2 ^ k ∣ (takeBlock k h (total xs) size).heapPtr + total xs := by
    rw [hptr]
    exact Nat.dvd_add hs.heapAligned hxs
  refine ⟨_, xs ++ [⟨l, some n⟩] ++ (rest ++ ys), l, hq, ⟨?_, ?_, ?_⟩, hle, ⟨hs'', ?_, ?_, ?_⟩, hptr, ?_, fun hlow => ?_⟩
  · have hsub' : total xs + l ≤ (takeBlock k h (total xs) size).heapEnd k := hsub
    show (takeBlock k h (total xs) size).heapPtr + total xs + sizeofStructMem k + size ≤
      (takeBlock k h (total xs) size).heapPtr + (takeBlock k h (total xs) size).heapEnd k
    omega
  · exact Nat.mod_eq_zero_of_dvd (Nat.dvd_add hptrDvd (sizeof_spec hk).2.2)
  · exact Nat.mod_eq_zero_of_dvd hptrDvd
  · exact compact_take hi.compact hb hrest
  · intro x hx
    rw [hheld', List.mem_append, List.mem_cons] at hx
    rcases hx with hx | rfl | hx
    · exact hi.fits x (by rw [hheld]; exact List.mem_append_left _ hx)
    · refine ⟨show sizeofStructMem k < l by omega, fun m hm => ?_⟩
      cases hm
      show sizeofStructMem k + n ≤ l
      omega
    · exact hi.fits x (by rw [hheld, Nat.zero_add]; exact List.mem_append_right _ hx)
  · rw [hheld', lengths_append, lengths_cons]
    refine husedMem.trans ?_
    rw [hi.usedMem_eq, hheld, lengths_append, Nat.zero_add]
    show _ = _ + (l + _)
    omega
  · exact ⟨_, _, hheld, by rw [hheld', Nat.zero_add]⟩
  · rw [hlfree, hendEq] at hqeq
    have hfirst := low_take (fun c hc => hs.pos hk c (by simp [hc])) hb hlow hqeq
    rw [← List.append_assoc, ← hendEq] at hfirst
    exact hfirst

theorem firstFit_eq (hk : k ≤ 30) {size : ℕ} (hs : Shape k h (xs ++ ys)) (hlfree : h.lfree = total xs) :
    firstFit k h size = (vacant (total xs) ys).find? fun p =>
      p < h.memSizeAligned - size ∧ size ≤ dataSize k h.mem p := by
  have hpos : ∀ c ∈ xs, 0 < c.len := fun c hc => hs.pos hk c (by simp [hc])
  have hbefore : (vacant 0 xs).find? (fun p => h.lfree ≤ p ∧ p < h.memSizeAligned - size ∧
      size ≤ dataSize k h.mem p) = none := by
    refine List.find?_eq_none.mpr fun p hp => ?_
    have hlt := vacant_lt_total hpos hp
    simp only [decide_eq_true_eq, not_and]
    omega
  rw [firstFit, unused_eq hk hs, vacant_append, Nat.zero_add, List.find?_append, hbefore, Option.none_or]
  refine List.find?_congr fun p hp => ?_
  obtain ⟨us, c, vs, -, rfl, -⟩ := mem_vacant hp
  simp [hlfree]

theorem dvd_request (k size : ℕ) : 2 ^ k ∣ request k size := by
  rw [request]
  split
  · exact dvd_alignUp k minSize
  · exact dvd_alignUp k size

theorem request_le (hmin : minSizeAligned k ≤ h.memSizeAligned) {size : ℕ} (hle : alignUp k size ≤ h.memSizeAligned) :
    request k size ≤ h.memSizeAligned := by
  rw [request]
  split
  · exact hmin
  · exact hle

theorem le_request {size : ℕ} (hsize : size + (2 ^ k - 1) < 2 ^ 32) : size ≤ request k size := by
  have hup := (alignUp_spec hsize).1
  rw [request]
  split <;> omega

theorem request_pos (hk : k ≤ 30) (size : ℕ) : 0 < request k size := by
  have h12 : 12 ≤ minSizeAligned k := (sizeof_spec hk).1
  rw [request]
  split <;> omega

theorem firstFit_of_lt {size : ℕ} (hlt : h.memSizeAligned < size) : firstFit k h size = none := by
  refine List.find?_eq_none.mpr fun p _ => ?_
  simp only [decide_eq_true_eq, not_and]
  omega

theorem firstFit_tile (hk : k ≤ 30) (hs : Shape k h bs) {size p : ℕ} (hfit : firstFit k h size = some p) :
    ∃ xs b ys, bs = xs ++ [b] ++ ys ∧ p = total xs ∧ b.label = none ∧ sizeofStructMem k + size ≤ b.len := by
  have hlarge := List.find?_some hfit
  have hmem := List.mem_of_find?_eq_some hfit
  rw [unused_eq hk hs] at hmem
  obtain ⟨xs, b, ys, rfl, rfl, hb⟩ := mem_vacant hmem
  simp only [decide_eq_true_eq, Nat.zero_add, dataSize_eq hs] at hlarge
  have hlen := hs.cons.2.2.1
  exact ⟨xs, b, ys, by simp, Nat.zero_add _, hb, by omega⟩

theorem rtMalloc_eq (hk : k ≤ 30) (hi : Inv k h bs) {size : ℕ} (hpos : size ≠ 0) :
    rtMalloc k h size = (firstFit k h (request k size)).elim (some (h, 0)) fun p =>
      (advanceLfree k (takeBlock k h p (request k size)) p).bind fun h' =>
        if mallocAssert k h' p (request k size) then some (h', h'.heapPtr + p + sizeofStructMem k) else none := by
  simp only [rtMalloc, if_neg hpos]
  split
  · rename_i hlt
    rw [firstFit_of_lt]
    · rfl
    · rw [request]
      split <;> omega
  · rename_i hle
    have hszle := request_le hi.shape.minSize_le (not_lt.mp hle)
    rw [← request]
    generalize request k size = sz at hszle ⊢
    obtain ⟨xs, ys, hbs, hlfree⟩ := hi.shape.lfree_split
    subst hbs
    have hfuel := hi.shape.length_lt hk
    rw [List.length_append] at hfuel
    rw [hlfree, searchLoop_eq hszle hi.shape (by omega), ← firstFit_eq hk hi.shape hlfree, Option.bind_some]
    cases firstFit k h sz <;> rfl

/-- `rt_malloc` fails and changes nothing, or takes the first block that fits for its caller. -/
theorem rtMalloc_spec (hk : k ≤ 30) (hi : Inv k h bs) {size n : ℕ} (hn : n ≤ request k size) :
    ∃ h' r, rtMalloc k h size = some (h', r) ∧
      ((r = 0 ∧ h' = h ∧ (size ≠ 0 → firstFit k h (request k size) = none)) ∨
      ∃ bs' p l, r = h.heapPtr + p + sizeofStructMem k ∧ (size ≠ 0 ∧ firstFit k h (request k size) = some p) ∧
        sizeofStructMem k + request k size ≤ l ∧ Inv k h' bs' ∧
        h'.heapPtr = h.heapPtr ∧ Adds bs bs' (p, ⟨l, some n⟩) ∧ (Low k h bs → Low k h' bs')) := by
  by_cases hpos : size = 0
  · refine ⟨h, 0, ?_, Or.inl ⟨rfl, rfl, fun hne => absurd hpos hne⟩⟩
    rw [rtMalloc, if_pos hpos]
  · rw [rtMalloc_eq hk hi hpos]
    cases hfit : firstFit k h (request k size) with
    | none => exact ⟨h, 0, rfl, Or.inl ⟨rfl, rfl, fun _ => rfl⟩⟩
    | some p =>
      obtain ⟨xs, b, ys, rfl, rfl, hb, hlen⟩ := firstFit_tile hk hi.shape hfit
      obtain ⟨h', bs', l, hadv, hassert, hl, hi', hptr, hadds, hlow⟩ :=
        take_spec hk hi hb hlen (dvd_request k size) (request_pos hk size) hn
      refine ⟨h', _, ?_, Or.inr ⟨bs', total xs, l, rfl, ⟨hpos, rfl⟩, hl, hi', hptr, hadds, hlow⟩⟩
      rw [Option.elim_some, hadv, Option.bind_some, if_pos hassert, hptr]

theorem Shape.pointer_offset (hs : Shape k h (xs ++ [b] ++ ys)) :
    sub 32 (sub 32 (h.heapPtr + total xs + sizeofStructMem k) (sizeofStructMem k)) h.heapPtr = total xs := by
  have hbound := hs.bound
  have hle := hs.len_le
  rw [sub_of_le (a := h.heapPtr + total xs + sizeofStructMem k) (by omega) (by omega), Nat.add_sub_cancel,
    sub_of_le (by omega) (by omega), Nat.add_sub_cancel_left]

theorem le_headD_vacant (ys : List (Tile ℕ)) {p n : ℕ} (hn : p + total ys ≤ n) : p ≤ (vacant p ys).headD n := by
  cases hv : vacant p ys with
  | nil => exact (Nat.le_add_right _ _).trans hn
  | cons q l =>
    have hmem : q ∈ vacant p ys := by
      rw [hv]
      exact List.mem_cons_self
    obtain ⟨us, c, vs, -, hq, -⟩ := mem_vacant hmem
    rw [List.headD_cons]
    omega

theorem low_free (hpos : ∀ c ∈ xs ++ [b] ++ ys, 0 < c.len) (hb : b.label.isSome = true)
    (hend : total xs + b.len + total ys = h.heapEnd k) (hlow : Low k h (xs ++ [b] ++ ys)) :
    (if total xs < h.lfree then total xs else h.lfree) = (vacant 0 xs).headD (total xs) := by
  have hlen := hpos b (by simp)
  have hafter := le_headD_vacant ys hend.le
  rw [low_iff_of_some hb] at hlow
  by_cases hne : vacant 0 xs = []
  · rw [hne, List.headD_nil] at hlow
    rw [if_pos (by omega), hne, List.headD_nil]
  · have hlt := headD_vacant_lt (n := (vacant (total xs + b.len) ys).headD (h.heapEnd k))
      (fun c hc => hpos c (by simp [hc])) hne
    rw [if_neg (by omega), hlow]
    cases hv : vacant 0 xs with
    | nil => exact absurd hv hne
    | cons p l => rfl

/-- The block at `p` of `len` bytes is no longer in use, and not yet joined to its neighbours (`mem.c:586-604`). -/
def Heap.release (h : Heap) (p len : ℕ) : Heap :=
  { h with
    mem := setMagic (setUsed h.mem p 0) p heapMagic
    lfree := if p < h.lfree then p else h.lfree
    usedMem := sub 32 h.usedMem len }

theorem release_shape (hk : k ≤ 30) (hs : Shape k h (xs ++ [b] ++ ys)) :
    Shape k (h.release (total xs) b.len) (xs ++ [⟨b.len, none⟩] ++ ys) := by
  have hrelabel : Shape k { h.release (total xs) b.len with lfree := h.lfree } (xs ++ [⟨b.len, none⟩] ++ ys) :=
    hs.relabel hk none rfl rfl rfl rfl
  refine hrelabel.setLfree ?_
  split
  · exact Or.inr ⟨⟨b.len, none⟩, by simp [place]⟩
  · exact hrelabel.lfree

theorem rtFree_eq (hk : k ≤ 30) (hi : Inv k h (xs ++ [b] ++ ys)) {n : ℕ} (hb : b.label = some n) :
    rtFree k h (h.heapPtr + total xs + sizeofStructMem k) = plugHoles k (h.release (total xs) b.len) (total xs) := by
  obtain ⟨h12, -, hsdvd⟩ := sizeof_spec hk
  have hs := hi.shape
  have hbound := hs.bound
  have hle := hs.len_le
  have hdata : sizeofStructMem k < b.len := (hi.fits (total xs, b) (by rw [held_middle_of_some xs ys hb]; simp)).1
  obtain ⟨-, hhead, -⟩ := hs.middle
  have hxs : 2 ^ k ∣ total xs := by
    rw [List.append_assoc] at hs
    exact hs.dvd_total
  have hp := hs.pointer_offset
  have hnext : nextOf (setMagic (setUsed h.mem (total xs) 0) (total xs) heapMagic) (total xs) = total xs + b.len :=
    ((hhead.setUsed false).setMagic).next
  have hlen : sub 32 (total xs + b.len) (total xs) = b.len := by
    rw [sub_of_le (by omega) (by omega), Nat.add_sub_cancel_left]
  have hrmem : (h.heapPtr + total xs + sizeofStructMem k) % 2 ^ k = 0 :=
    Nat.mod_eq_zero_of_dvd (Nat.dvd_add (Nat.dvd_add hs.heapAligned hxs) hsdvd)
  have hinuse : usedOf h.mem (total xs) ≠ 0 ∧ magicOf h.mem (total xs) = heapMagic := by
    rw [hhead.used, hb]
    exact ⟨Nat.one_ne_zero, hhead.magic⟩
  have hne : h.heapPtr + total xs + sizeofStructMem k ≠ 0 := by omega
  simp only [rtFree, if_neg hne, hp, hnext, hlen]
  rw [if_pos ⟨hrmem, by omega, by omega⟩, if_pos hinuse]
  rfl

theorem rtFree_spec (hk : k ≤ 30) (hi : Inv k h (xs ++ [b] ++ ys)) {n : ℕ} (hb : b.label = some n) :
    ∃ h' bs', rtFree k h (h.heapPtr + total xs + sizeofStructMem k) = some h' ∧ Inv k h' bs' ∧
      h'.heapPtr = h.heapPtr ∧ Adds bs' (xs ++ [b] ++ ys) (total xs, b) ∧
      (Low k h (xs ++ [b] ++ ys) → Low k h' bs') := by
  have hs := hi.shape
  have hbound := hs.bound
  have hheld : held 0 (xs ++ [b] ++ ys) =
      held 0 xs ++ (total xs, b) :: held (total xs + b.len) ys := by
    rw [held_middle_of_some xs ys hb, Nat.zero_add]
  obtain ⟨-, -, -, -, htotal⟩ := hs.middle
  have hused : sub 32 h.usedMem b.len = lengths (held 0 xs) + lengths (held (total xs + b.len) ys) := by
    have hcount := hi.usedMem_eq
    rw [hheld, lengths_append, lengths_cons] at hcount
    have htotal := lengths_held_le 0 (xs ++ [b] ++ ys)
    rw [hs.total_eq, ← hi.usedMem_eq] at htotal
    have hcount' : h.usedMem = lengths (held 0 xs) + (b.len + lengths (held (total xs + b.len) ys)) := hcount
    rw [sub_of_le (by omega) (by omega)]
    omega
  have hcompact := hi.compact
  rw [List.append_assoc, List.singleton_append, compact_append_cons] at hcompact
  obtain ⟨h', bs', hplug, hshape, hsame, hcompact', hjoined, -⟩ :=
    plugHoles_spec hk (release_shape hk hs) rfl hcompact.1 hcompact.2.1
  have hheld' : held 0 bs' = held 0 xs ++ held (total xs + b.len) ys := by
    rw [hsame.held_eq, held_middle_of_none xs ys rfl, Nat.zero_add]
  refine ⟨h', bs', (rtFree_eq hk hi hb).trans hplug, ⟨hshape, hcompact', fun x hx => ?_, ?_⟩, hsame.heapPtr_eq,
    ⟨_, _, hheld', hheld⟩, fun hlow => hjoined (Or.inl ?_)⟩
  · rw [hheld', List.mem_append] at hx
    refine hi.fits x ?_
    rw [hheld, List.mem_append, List.mem_cons]
    tauto
  · rw [hsame.usedMem_eq, hheld', lengths_append]
    exact hused
  · rw [low_iff_of_none rfl]
    exact low_free (hs.pos hk) (by rw [hb]; rfl) htotal hlow

/-! ### `rt_realloc` and `rt_calloc` -/

theorem exists_append_of_mem_held {p : ℕ} (hmem : (p, b) ∈ held 0 bs) :
    ∃ xs ys n, bs = xs ++ [b] ++ ys ∧ p = total xs ∧ b.label = some n := by
  obtain ⟨hplace, hlabel⟩ := List.mem_filter.mp hmem
  obtain ⟨xs, ys, hbs, hp⟩ := exists_append_of_mem_place hplace
  obtain ⟨n, hn⟩ := Option.isSome_iff_exists.mp hlabel
  exact ⟨xs, ys, n, by simpa using hbs, by omega, hn⟩

theorem Inv.write (hk : k ≤ 30) {m' : Mem} (hi : Inv k h (xs ++ [b] ++ ys))
    (hout : ∀ x, x < total xs + sizeofStructMem k ∨ total xs + b.len ≤ x → h.mem x = m' x) :
    Inv k { h with mem := m' } (xs ++ [b] ++ ys) := by
  have h12 := (sizeof_spec hk).1
  obtain ⟨-, hhead, hlen, -⟩ := hi.shape.middle
  refine ⟨hi.shape.rewrite hk rfl rfl rfl (fun lo hi' hlo x hx => hout x ?_)
    (hhead.congr fun x hx => hout x ?_), hi.compact, hi.fits, hi.usedMem_eq⟩
  · have := hx.1
    have := hx.2
    omega
  · have := hx.2
    omega

theorem Shape.setLabel (hk : k ≤ 30) {label : Option ℕ} (hs : Shape k h (xs ++ [b] ++ ys))
    (hlabel : label.isSome = b.label.isSome) : Shape k h (xs ++ [⟨b.len, label⟩] ++ ys) := by
  refine hs.rewrite hk rfl rfl rfl (fun _ _ _ => Set.eqOn_refl _ _) ?_
  rw [hlabel]
  exact hs.middle.2.1

theorem Adds.mem_iff {bs' : List (Tile ℕ)} {x : ℕ × Tile ℕ} (ha : Adds bs bs' x) (y : ℕ × Tile ℕ) :
    y ∈ held 0 bs' ↔ y = x ∨ y ∈ held 0 bs := by
  obtain ⟨l, r, hbs, hbs'⟩ := ha
  rw [hbs, hbs', List.mem_append, List.mem_cons, List.mem_append]
  tauto

theorem Adds.ne {bs' : List (Tile ℕ)} {x : ℕ × Tile ℕ} (ha : Adds bs bs' x) (hi : Inv k h bs')
    {y : ℕ × Tile ℕ} (hy : y ∈ held 0 bs) : y.1 ≠ x.1 := by
  have hxlen := (hi.fits x ((ha.mem_iff x).mpr (Or.inl rfl))).1
  have hylen := (hi.fits y ((ha.mem_iff y).mpr (Or.inr hy))).1
  have hpair := held_pairwise 0 bs'
  obtain ⟨l, r, hbs, hbs'⟩ := ha
  rw [hbs', List.pairwise_append, List.pairwise_cons] at hpair
  rw [hbs, List.mem_append] at hy
  rcases hy with hy | hy
  · have := hpair.2.2 y hy x List.mem_cons_self
    omega
  · have := hpair.2.1.1 y hy
    omega

/-- The block at `q` is given up, and `x` is in use. -/
structure Moves (bs bs' : List (Tile ℕ)) (q : ℕ) (x : ℕ × Tile ℕ) : Prop where
  mem_iff : ∀ y, y ∈ held 0 bs' ↔ y = x ∨ y ∈ held 0 bs ∧ y.1 ≠ q
  ne : ∀ y ∈ held 0 bs, y.1 ≠ q → y.1 ≠ x.1

theorem moves_in_place {mid bs' : List (Tile ℕ)} {q : ℕ} {c : Tile ℕ} (hi : Inv k h bs)
    (hold : Adds mid bs (q, b)) (hnew : Adds mid bs' (q, c)) : Moves bs bs' q (q, c) := by
  refine ⟨fun y => ?_, fun y _ hne => hne⟩
  rw [hnew.mem_iff, hold.mem_iff]
  constructor
  · rintro (rfl | hy)
    · exact Or.inl rfl
    · exact Or.inr ⟨Or.inr hy, hold.ne hi hy⟩
  · rintro (rfl | ⟨rfl | hy, hne⟩)
    · exact Or.inl rfl
    · exact absurd rfl hne
    · exact Or.inr hy

theorem moves_of_adds {bs₁ bs' : List (Tile ℕ)} {q : ℕ} {x : ℕ × Tile ℕ} {h₁ : Heap} (hi₁ : Inv k h₁ bs₁)
    (hq : (q, b) ∈ held 0 bs) (hnew : Adds bs bs₁ x) (hold : Adds bs' bs₁ (q, b)) :
    Moves bs bs' q x := by
  refine ⟨fun y => ?_, fun y hy _ => hnew.ne hi₁ hy⟩
  have hxq : x.1 ≠ q := fun he => hnew.ne hi₁ hq he.symm
  constructor
  · intro hy
    have hne := hold.ne hi₁ hy
    rcases (hnew.mem_iff y).mp ((hold.mem_iff y).mpr (Or.inr hy)) with rfl | hy
    · exact Or.inl rfl
    · exact Or.inr ⟨hy, hne⟩
  · intro hy
    have hmem : y ∈ held 0 bs₁ := (hnew.mem_iff y).mpr (hy.imp_right And.left)
    refine ((hold.mem_iff y).mp hmem).resolve_left fun he => ?_
    subst he
    rcases hy with rfl | hy
    · exact hxq rfl
    · exact hy.2 rfl

theorem Inv.resize {h' : Heap} {bs' : List (Tile ℕ)} {l n n₀ : ℕ} (hi : Inv k h (xs ++ [b] ++ ys))
    (hb : b.label = some n₀) (hs : Shape k h' bs') (hc : Compact bs')
    (hheld : held 0 bs' = held 0 xs ++ (total xs, ⟨l, some n⟩) :: held (total xs + b.len) ys)
    (hl : sizeofStructMem k < l) (hn : sizeofStructMem k + n ≤ l)
    (hused : h'.usedMem + b.len = h.usedMem + l) :
    Inv k h' bs' ∧ Moves (xs ++ [b] ++ ys) bs' (total xs) (total xs, ⟨l, some n⟩) := by
  have hold := held_middle_of_some (p := 0) xs ys hb
  rw [Nat.zero_add] at hold
  have hvacant := @held_middle_of_none ℕ 0 ⟨b.len, none⟩ xs ys rfl
  rw [Nat.zero_add] at hvacant
  refine ⟨⟨hs, hc, fun x hx => ?_, ?_⟩, moves_in_place hi ⟨_, _, hvacant, hold⟩ ⟨_, _, hvacant, hheld⟩⟩
  · rw [hheld, List.mem_append, List.mem_cons] at hx
    rcases hx with hx | rfl | hx
    · exact hi.fits x (by rw [hold]; exact List.mem_append_left _ hx)
    · refine ⟨hl, fun m hm => ?_⟩
      cases hm
      exact hn
    · exact hi.fits x (by rw [hold]; exact List.mem_append_right _ (List.mem_cons_of_mem _ hx))
  · have hcount := hi.usedMem_eq
    rw [hold, lengths_append, lengths_cons] at hcount
    rw [hheld, lengths_append, lengths_cons]
    show _ = _ + (l + _)
    have hcount' : h.usedMem = lengths (held 0 xs) + (b.len + lengths (held (total xs + b.len) ys)) := hcount
    omega

theorem Shape.setUsedMem (hs : Shape k h bs) (n : ℕ) : Shape k { h with usedMem := n } bs :=
  ⟨hs.seg, hs.total_eq, hs.bound, hs.aligned, hs.heapAligned, hs.minSize_le, hs.lfree⟩

/-- The free block that is split off is the lowest one, unless there is a free block before it, or directly behind. -/
theorem lowJoined_split_iff {h₀ : Heap} {l₁ l₂ n : ℕ} (hpos : ∀ c ∈ xs ++ [b] ++ ys, 0 < c.len)
    (hb : b.label.isSome = true) (hlen : l₁ + l₂ = b.len) (hl₂ : 0 < l₂)
    (hend : total xs + b.len + total ys = h.heapEnd k) (hlfree : h₀.lfree = h.lfree) (hlow : Low k h (xs ++ [b] ++ ys)) :
    LowJoined k h₀ (xs ++ [⟨l₁, some n⟩]) ⟨l₂, none⟩ ys ↔
      h.lfree < total xs ∨ h.lfree = total xs + b.len ∧ h.lfree ≠ h.heapEnd k := by
  have hafter := le_headD_vacant ys hend.le
  have hvacant : vacant 0 (xs ++ [(⟨l₁, some n⟩ : Tile ℕ)]) = vacant 0 xs := by
    rw [vacant_append, vacant_cons_of_some [] rfl, vacant_nil, List.append_nil]
  have htotal : total (xs ++ [(⟨l₁, some n⟩ : Tile ℕ)]) = total xs + l₁ := by simp [total]
  rw [LowJoined, low_iff_of_none rfl, hvacant, htotal, hlfree]
  rw [low_iff_of_some hb] at hlow
  by_cases hne : vacant 0 xs = []
  · rw [hne, List.headD_nil] at hlow
    simp only [hne, List.headD_nil, true_and, show total xs + l₁ + l₂ = total xs + b.len by omega]
    constructor
    · rintro (hsplit | ⟨hl, c, hc, hfree⟩)
      · omega
      · refine Or.inr ⟨hl, ?_⟩
        cases ys with
        | nil => cases hc
        | cons d ys =>
          have hd := hpos d (by simp)
          rw [total] at hend
          omega
    · rintro (hl | ⟨hl, hlast⟩)
      · omega
      · refine Or.inr ⟨hl, ?_⟩
        cases ys with
        | nil => exact absurd hlow hlast
        | cons d ys =>
          have hd := hpos d (by simp)
          refine ⟨d, rfl, ?_⟩
          by_contra hused
          rw [vacant_cons_of_some ys (Option.isSome_iff_ne_none.mpr hused)] at hlow
          rw [total, ← Nat.add_assoc] at hend
          have := le_headD_vacant ys hend.le
          omega
  · have hlt := headD_vacant_lt (n := (vacant (total xs + b.len) ys).headD (h.heapEnd k))
      (fun c hc => hpos c (by simp [hc])) hne
    refine iff_of_true (Or.inl ?_) (Or.inl (by omega))
    rw [hlow]
    cases hv : vacant 0 xs with
    | nil => exact absurd hv hne
    | cons p l => rfl

theorem reallocSplit_spec (hk : k ≤ 30) {n₀ n size : ℕ} (hi : Inv k h (xs ++ [b] ++ ys))
    (hb : b.label = some n₀) (hdvd : 2 ^ k ∣ size) (hpos : 0 < size) (hn : n ≤ size)
    (hlen : sizeofStructMem k + size + sizeofStructMem k ≤ b.len) :
    ∃ h' bs' l, plugHoles k (splitBlock k { h with usedMem := sub 32 h.usedMem (b.len - sizeofStructMem k - size) }
        (total xs) (total xs + (sizeofStructMem k + size))) (total xs + (sizeofStructMem k + size)) = some h' ∧
      Inv k h' bs' ∧ h'.heapPtr = h.heapPtr ∧
      Moves (xs ++ [b] ++ ys) bs' (total xs) (total xs, ⟨l, some n⟩) ∧ sizeofStructMem k + size ≤ l ∧
      (Low k h (xs ++ [b] ++ ys) →
        (Low k h' bs' ↔ h.lfree < total xs ∨ h.lfree = total xs + b.len ∧ h.lfree ≠ h.heapEnd k)) := by
  obtain ⟨h12, -, hsdvd⟩ := sizeof_spec hk
  have hbound := hi.shape.bound
  have hle := hi.shape.len_le
  obtain ⟨h₀, hh₀⟩ : ∃ h₀, h₀ = { h with usedMem := sub 32 h.usedMem (b.len - sizeofStructMem k - size) } :=
    ⟨_, rfl⟩
  rw [← hh₀]
  have hs : Shape k h₀ (xs ++ [b] ++ ys) := by
    rw [hh₀]
    exact hi.shape.setUsedMem _
  have hlabelled : Shape k (splitBlock k h₀ (total xs) (total xs + (sizeofStructMem k + size)))
      (xs ++ [⟨sizeofStructMem k + size, some n⟩] ++
        ([⟨b.len - (sizeofStructMem k + size), none⟩] ++ ys)) :=
    (splitBlock_data hk hs hdvd hlen).setLabel hk (by simp [hb])
  rw [← List.append_assoc] at hlabelled
  have hcompact := hi.compact
  rw [List.append_assoc, List.singleton_append, compact_append_cons] at hcompact
  have hxs : Compact (xs ++ [⟨sizeofStructMem k + size, some n⟩]) :=
    compact_append_cons.mpr ⟨hcompact.1, List.isChain_nil, fun _ _ => Or.inr rfl, nofun⟩
  obtain ⟨h', bs', hplug, hshape, hsame, hcompact', hjoined, hjoined'⟩ :=
    plugHoles_spec hk hlabelled rfl hxs hcompact.2.1
  have hq : total (xs ++ [(⟨sizeofStructMem k + size, some n⟩ : Tile ℕ)]) =
      total xs + (sizeofStructMem k + size) := by simp [total]
  rw [hq] at hplug
  have hptr := hsame.heapPtr_eq.trans (splitBlock_keeps k h₀ (total xs) _).1
  have husedMem : h'.usedMem = sub 32 h.usedMem (b.len - sizeofStructMem k - size) := by
    rw [hsame.usedMem_eq]
    simp only [splitBlock, hh₀]
  have hheld : held 0 bs' = held 0 xs ++ (total xs, ⟨sizeofStructMem k + size, some n⟩) ::
      held (total xs + b.len) ys := by
    have hlast := @held_middle_of_some ℕ 0 ⟨sizeofStructMem k + size, some n⟩ n xs [] rfl
    rw [List.append_nil, Nat.zero_add] at hlast
    rw [hsame.held_eq, held_middle_of_none _ ys rfl, hq, hlast, List.append_assoc, List.cons_append,
      Nat.zero_add]
    show _ ++ _ :: held (total xs + (sizeofStructMem k + size) + (b.len - (sizeofStructMem k + size))) ys = _
    rw [show total xs + (sizeofStructMem k + size) + (b.len - (sizeofStructMem k + size)) =
      total xs + b.len by omega]
  have hcount : h.usedMem = lengths (held 0 (xs ++ [b] ++ ys)) := hi.usedMem_eq
  have hlengths := lengths_held_le 0 (xs ++ [b] ++ ys)
  rw [← hcount, hi.shape.total_eq] at hlengths
  have hblock : b.len ≤ h.usedMem := by
    rw [hcount, held_middle_of_some xs ys hb, lengths_append, lengths_cons]
    show b.len ≤ _ + (b.len + _)
    omega
  obtain ⟨hinv, hmoves⟩ := hi.resize hb hshape hcompact' hheld (by omega) (by omega) (by
    rw [husedMem, sub_of_le (by omega) (by omega)]
    omega)
  refine ⟨h', bs', _, hplug, hinv, hptr.trans (by rw [hh₀]), hmoves, le_rfl, fun hlow => ?_⟩
  have hlfree : (splitBlock k h₀ (total xs) (total xs + (sizeofStructMem k + size))).lfree = h.lfree :=
    (splitBlock_keeps k h₀ (total xs) _).2.2.trans (by rw [hh₀])
  rw [← lowJoined_split_iff (hi.shape.pos hk) (by rw [hb]; rfl)
    (show sizeofStructMem k + size + (b.len - (sizeofStructMem k + size)) = b.len by omega) (by omega)
    hi.shape.middle.2.2.2.2 hlfree hlow]
  exact ⟨hjoined' (by simp), hjoined⟩

theorem rtMemcpy_of_out {m : Mem} {dst src n x : ℕ} (hx : x < dst ∨ dst + n ≤ x) :
    rtMemcpy m dst src n x = m x := if_neg (by omega)

theorem rtMemset_of_out {m : Mem} {dst n x : ℕ} (hx : x < dst ∨ dst + n ≤ x) :
    rtMemset m dst n x = m x := if_neg (by omega)

theorem Inv.copy (hk : k ≤ 30) {x : ℕ × Tile ℕ} {dst src n : ℕ} (hi : Inv k h bs) (hx : x ∈ held 0 bs)
    (hdst : dst = x.1 + sizeofStructMem k) (hn : sizeofStructMem k + n ≤ x.2.len) :
    Inv k { h with mem := rtMemcpy h.mem dst src n } bs := by
  obtain ⟨xs, ys, _, rfl, hp, -⟩ := exists_append_of_mem_held hx
  refine hi.write hk fun y hy => (rtMemcpy_of_out ?_).symm
  omega

theorem reallocMove_spec (hk : k ≤ 30) {n₀ n newsize size : ℕ} (hi : Inv k h (xs ++ [b] ++ ys))
    (hb : b.label = some n₀) (hcopy : newsize ≤ request k newsize) (hn : n ≤ newsize) :
    ∃ h' r, reallocMove k h (h.heapPtr + total xs + sizeofStructMem k) size newsize = some (h', r) ∧
      ((r = 0 ∧ h' = h) ∨ ∃ bs' p l, r = h.heapPtr + p + sizeofStructMem k ∧ Inv k h' bs' ∧
        h'.heapPtr = h.heapPtr ∧ Moves (xs ++ [b] ++ ys) bs' (total xs) (p, ⟨l, some n⟩) ∧
        (Low k h (xs ++ [b] ++ ys) → Low k h' bs')) := by
  have h12 := (sizeof_spec hk).1
  simp only [reallocMove]
  obtain ⟨h₁, r, hr, ⟨rfl, rfl, -⟩ | ⟨bs₁, p, l, rfl, -, hl, hi₁, hptr, hadds, hlow₁⟩⟩ :=
    rtMalloc_spec hk hi (hn.trans hcopy)
  · rw [hr]
    exact ⟨h₁, 0, rfl, Or.inl ⟨rfl, rfl⟩⟩
  · rw [hr, Option.bind_some]
    simp only
    rw [if_neg (by omega), hptr]
    -- the copy stays within the new block
    have hcopied := @Inv.copy k h₁ bs₁ hk (p, ⟨l, some n⟩) _ (h.heapPtr + total xs + sizeofStructMem k - h.heapPtr) _ hi₁
      ((hadds.mem_iff _).mpr (Or.inl rfl)) (show h.heapPtr + p + sizeofStructMem k - h.heapPtr = p + sizeofStructMem k by omega)
      (show sizeofStructMem k + (if size < newsize then size else newsize) ≤ l by split <;> omega)
    have hmem : (total xs, b) ∈ held 0 (xs ++ [b] ++ ys) := by
      rw [held_middle_of_some xs ys hb, Nat.zero_add]
      simp
    obtain ⟨xs₂, ys₂, n₂, hbs₂, htotal, hb₂⟩ :=
      exists_append_of_mem_held ((hadds.mem_iff _).mpr (Or.inr hmem))
    rw [hbs₂] at hcopied hadds hi₁ hlow₁
    obtain ⟨h₂, bs', hfree, hi₂, hptr₂, hadds₂, hlow₂⟩ := rtFree_spec hk hcopied hb₂
    rw [← htotal] at hfree hadds₂
    rw [show ({ h₁ with mem := _ } : Heap).heapPtr = h.heapPtr from hptr] at hfree
    refine ⟨h₂, _, by rw [hfree]; rfl, Or.inr ⟨bs', p, l, rfl, hi₂, hptr₂.trans hptr, ?_,
      fun hlow => hlow₂ (hlow₁ hlow)⟩⟩
    exact moves_of_adds hi₁ hmem hadds hadds₂

theorem Shape.align_lt (hk : k ≤ 30) (hs : Shape k h bs) {size : ℕ} (hsize : size ≤ h.memSizeAligned) :
    size + (2 ^ k - 1) < 2 ^ 32 := by
  obtain ⟨h12, -, hdvd⟩ := sizeof_spec hk
  have hpow : 2 ^ k ≤ sizeofStructMem k := Nat.le_of_dvd (by omega) hdvd
  have hbound := hs.bound
  rw [Heap.heapEnd] at hbound
  omega

/-- A block that is to have `newsize` bytes is split in place. -/
def SplitsTile (k : ℕ) (b : Tile ℕ) (newsize : ℕ) : Prop :=
  alignUp k newsize + sizeofStructMem k + minSize < b.len - sizeofStructMem k

instance (b : Tile ℕ) (newsize : ℕ) : Decidable (SplitsTile k b newsize) := inferInstanceAs (Decidable (_ < _))

/-- The cases of `rt_realloc` for a block in use and a size that is not zero. -/
theorem rtRealloc_eq (hk : k ≤ 30) {n₀ newsize : ℕ} (hi : Inv k h (xs ++ [b] ++ ys))
    (hb : b.label = some n₀) (hsize : newsize + (2 ^ k - 1) < 2 ^ 32) (hpos : 0 < newsize) :
    rtRealloc k h (h.heapPtr + total xs + sizeofStructMem k) newsize =
      if h.memSizeAligned < alignUp k newsize then some (h, 0)
      else if b.len - sizeofStructMem k = alignUp k newsize then some (h, h.heapPtr + total xs + sizeofStructMem k)
      else if SplitsTile k b newsize then
        (plugHoles k (splitBlock k
          { h with usedMem := sub 32 h.usedMem (b.len - sizeofStructMem k - alignUp k newsize) } (total xs)
            (total xs + (sizeofStructMem k + alignUp k newsize)))
          (total xs + (sizeofStructMem k + alignUp k newsize))).map fun h' =>
            (h', h.heapPtr + total xs + sizeofStructMem k)
      else reallocMove k h (h.heapPtr + total xs + sizeofStructMem k) (b.len - sizeofStructMem k) (alignUp k newsize) := by
  have h12 := (sizeof_spec hk).1
  have hs := hi.shape
  have hbound := hs.bound
  have hle := hs.len_le
  have hup := (alignUp_spec hsize).1
  obtain ⟨-, hhead, hblen, -⟩ := hs.middle
  have hdata : sizeofStructMem k < b.len :=
    (hi.fits (total xs, b) (by rw [held_middle_of_some xs ys hb]; simp)).1
  have hp := hs.pointer_offset
  have hold : sub 32 (sub 32 (total xs + b.len) (total xs)) (sizeofStructMem k) =
      b.len - sizeofStructMem k := by
    rw [sub_of_le (a := total xs + b.len) (by omega) (by omega), Nat.add_sub_cancel_left,
      sub_of_le (by omega) (by omega)]
  obtain ⟨sz, hsz⟩ : ∃ sz, sz = alignUp k newsize := ⟨_, rfl⟩
  simp only [rtRealloc, SplitsTile, hp, hhead.next, hold, ← hsz]
  split
  · rfl
  · rename_i hmem
    rw [if_neg (by omega), if_neg (by omega), if_neg (by omega)]
    split
    · rfl
    · rw [Heap.heapEnd] at hbound hle
      rw [add_add_of_lt (a := sz) (by rw [minSize]; omega)]
      split
      · rename_i hcut
        have hq : add 32 (add 32 (total xs) (sizeofStructMem k)) sz = total xs + (sizeofStructMem k + sz) := by
          rw [add_add_of_lt (by omega), Nat.add_assoc]
        rw [sub_of_le (a := b.len - sizeofStructMem k) (by omega) (by omega), hq]
      · rfl

/-- `rt_realloc` of a block in use to a size that is not zero. -/
theorem rtRealloc_spec (hk : k ≤ 30) {n₀ newsize : ℕ} (hi : Inv k h (xs ++ [b] ++ ys))
    (hb : b.label = some n₀) (hsize : newsize + (2 ^ k - 1) < 2 ^ 32) (hpos : 0 < newsize) :
    ∃ h' r, rtRealloc k h (h.heapPtr + total xs + sizeofStructMem k) newsize = some (h', r) ∧
      ((r = 0 ∧ h' = h ∧ ¬SplitsTile k b newsize) ∨ ∃ bs' p l, r = h.heapPtr + p + sizeofStructMem k ∧ Inv k h' bs' ∧
        h'.heapPtr = h.heapPtr ∧ Moves (xs ++ [b] ++ ys) bs' (total xs) (p, ⟨l, some newsize⟩) ∧
        (Low k h (xs ++ [b] ++ ys) → (Low k h' bs' ↔ (SplitsTile k b newsize →
          h.lfree < total xs ∨ h.lfree = total xs + b.len ∧ h.lfree ≠ h.heapEnd k)))) := by
  have hs := hi.shape
  have hle := hs.len_le
  have hup := (alignUp_spec hsize).1
  have hdata : sizeofStructMem k < b.len :=
    (hi.fits (total xs, b) (by rw [held_middle_of_some xs ys hb]; simp)).1
  have hdvd : 2 ^ k ∣ alignUp k newsize := dvd_alignUp k newsize
  rw [rtRealloc_eq hk hi hb hsize hpos]
  split
  · rename_i hmem
    rw [Heap.heapEnd] at hle
    refine ⟨h, 0, rfl, Or.inl ⟨rfl, rfl, ?_⟩⟩
    rw [SplitsTile]
    omega
  · rename_i hmem
    split
    · -- the block has this size already
      rename_i hsame
      have hcompact : Compact (xs ++ [⟨b.len, some newsize⟩] ++ ys) := by
        have hc := hi.compact
        rw [List.append_assoc, List.singleton_append, compact_append_cons] at hc ⊢
        exact ⟨hc.1, hc.2.1, fun _ _ => Or.inr rfl, fun _ _ => Or.inl rfl⟩
      have hheld := @held_middle_of_some ℕ 0 ⟨b.len, some newsize⟩ newsize xs ys rfl
      rw [Nat.zero_add] at hheld
      obtain ⟨hinv, hmoves⟩ := hi.resize hb (hs.setLabel hk (by simp [hb])) hcompact hheld hdata
        (by omega) rfl
      refine ⟨h, _, rfl, Or.inr ⟨_, total xs, b.len, rfl, hinv, rfl, hmoves, fun hlow => iff_of_true ?_ ?_⟩⟩
      · rw [low_iff_of_some (by rw [hb]; rfl)] at hlow
        exact (low_iff_of_some rfl).mpr hlow
      · intro hsplit
        rw [SplitsTile] at hsplit
        omega
    · split
      · rename_i hcut
        have hroom := hcut
        rw [SplitsTile, minSize] at hroom
        obtain ⟨h', bs', l, hplug, hinv, hptr, hmoves, -, hlow⟩ :=
          reallocSplit_spec hk hi hb hdvd (by omega) hup (by omega)
        refine ⟨h', _, ?_, Or.inr ⟨bs', total xs, l, rfl, hinv, hptr, hmoves, fun hl => ?_⟩⟩
        · rw [hplug, Option.map_some]
        · rw [hlow hl]
          exact ⟨fun hlt _ => hlt, fun hlt => hlt hcut⟩
      · rename_i hcut
        obtain ⟨h', r, hmove, hspec⟩ := @reallocMove_spec k h xs ys b hk _ _ _
          (b.len - sizeofStructMem k) hi hb
          (le_request (hs.align_lt hk (not_lt.mp hmem))) hup
        refine ⟨h', r, hmove, hspec.imp (fun hnull => ⟨hnull.1, hnull.2, hcut⟩) ?_⟩
        rintro ⟨bs', p, l, hr, hinv, hptr, hmoves, hlow⟩
        exact ⟨bs', p, l, hr, hinv, hptr, hmoves, fun hl => iff_of_true (hlow hl) fun hsplit => absurd hsplit hcut⟩

theorem rtCalloc_spec (hk : k ≤ 30) (hi : Inv k h bs) {count size : ℕ}
    (hsize : count * size + (2 ^ k - 1) < 2 ^ 32) : ∃ h' r, rtCalloc k h count size = some (h', r) ∧
      ((r = 0 ∧ h' = h) ∨ ∃ bs' p l, r = h.heapPtr + p + sizeofStructMem k ∧ Inv k h' bs' ∧
        h'.heapPtr = h.heapPtr ∧ Adds bs bs' (p, ⟨l, some (count * size)⟩) ∧ (Low k h bs → Low k h' bs')) := by
  have h12 := (sizeof_spec hk).1
  simp only [rtCalloc, Nat.mod_eq_of_lt (show count * size < 2 ^ 32 by omega)]
  have hreq := le_request hsize
  obtain ⟨h₁, r, hr, ⟨rfl, rfl, -⟩ | ⟨bs₁, p, l, rfl, -, hl, hi₁, hptr, hadds, hlow⟩⟩ := rtMalloc_spec hk hi hreq
  · rw [hr]
    exact ⟨h₁, 0, rfl, Or.inl ⟨rfl, rfl⟩⟩
  · rw [hr, Option.map_some]
    simp only
    rw [if_neg (by omega)]
    obtain ⟨xs₁, ys₁, -, hbs₁, hp, -⟩ := exists_append_of_mem_held ((hadds.mem_iff _).mpr (Or.inl rfl))
    subst hbs₁
    have hset : Inv k { h₁ with
        mem := rtMemset h₁.mem (h.heapPtr + p + sizeofStructMem k - h₁.heapPtr) (count * size) }
        (xs₁ ++ [⟨l, some (count * size)⟩] ++ ys₁) := by
      refine hi₁.write hk fun x hx => (rtMemset_of_out ?_).symm
      have hx' : x < total xs₁ + sizeofStructMem k ∨ total xs₁ + l ≤ x := hx
      omega
    exact ⟨_, _, rfl, Or.inr ⟨_, p, l, rfl, hset, hptr, hadds, hlow⟩⟩

end RtThread.Memory.SmallMem
