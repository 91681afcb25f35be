import RtThread.Memory.SmallMemLowest

/-!
# The data in the small-memory heap

The calls write headers only, but for the copy of `rt_realloc`. A header that is written is one of the chain, or begins
within the block that is cut.
-/

namespace RtThread.Memory.SmallMem

open RtThread.Lib.Bytes RtThread.Lib.Word RtThread.Lib.Tiling RtThread.Lib.Transition

variable {k : ℕ} {m m' : Mem} {h h' : Heap} {s : Sys} {bs xs ys : List (Tile ℕ)} {b : Tile ℕ} {p q r : ℕ}

/-- The offsets of the headers. -/
def headers (bs : List (Tile ℕ)) : Set ℕ := {c | c ∈ ends 0 bs}

/-- The offsets of the data of a block. -/
def dataOf (k : ℕ) (x : ℕ × Tile ℕ) : Set ℕ := Set.Ico (x.1 + sizeofStructMem k) (x.1 + x.2.len)

theorem headers_middle : headers (xs ++ [b] ++ ys) =
    {c | c ∈ (place 0 xs).map Prod.fst} ∪ {total xs} ∪ {c | c ∈ ends (total xs + b.len) ys} := by
  ext c
  rw [headers, Set.mem_ofPred_eq, List.append_assoc, List.singleton_append, ends_middle, Nat.zero_add]
  simp only [List.mem_append, List.mem_cons, Set.mem_union, Set.mem_ofPred_eq, Set.mem_singleton_iff, or_assoc]

theorem mem_headers : total xs ∈ headers (xs ++ [b] ++ ys) ∧ total xs + b.len ∈ headers (xs ++ [b] ++ ys) := by
  obtain ⟨l, hl⟩ := exists_ends_eq_cons (total xs + b.len) ys
  rw [headers_middle]
  simp [hl]

/-- Writes to the headers, and to one that begins within the tile `b`, leave the data of the other blocks alone. -/
theorem data_kept (hk : k ≤ 30) (hm : ChangedAt 12 (insert q (headers bs)) m m') {x y : ℕ × Tile ℕ}
    (hx : x ∈ place 0 bs) (hy : y ∈ place 0 bs) (hne : x.1 ≠ y.1) (hq : y.1 ≤ q ∧ q ≤ y.1 + y.2.len) :
    Set.EqOn m' m (dataOf k x) := by
  have h12 := (sizeof_spec hk).1
  have hapart := place_disjoint hx hy hne
  refine hm.eqOn fun c hc => ?_
  rcases hc with rfl | hc
  · omega
  · have := ends_apart hx hc
    omega

theorem headers_kept (hk : k ≤ 30) (hm : ChangedAt 12 (headers bs) m m') {x : ℕ × Tile ℕ} (hx : x ∈ place 0 bs) :
    Set.EqOn m' m (dataOf k x) := by
  have h12 := (sizeof_spec hk).1
  refine hm.eqOn fun c hc => ?_
  have := ends_apart hx hc
  omega

/-! ### What is written -/

theorem changedAt_setMagic {C : Set ℕ} (m : Mem) (v : ℕ) (hp : p ∈ C) : ChangedAt 12 C m (setMagic m p v) :=
  @changedAt_store 12 C 2 0 p m v hp (by omega)

theorem changedAt_setUsed {C : Set ℕ} (m : Mem) (v : ℕ) (hp : p ∈ C) : ChangedAt 12 C m (setUsed m p v) :=
  changedAt_store m v hp (by omega)

theorem changedAt_setNext {C : Set ℕ} (m : Mem) (v : ℕ) (hp : p ∈ C) : ChangedAt 12 C m (setNext m p v) :=
  changedAt_store m v hp (by omega)

theorem changedAt_setPrev {C : Set ℕ} (m : Mem) (v : ℕ) (hp : p ∈ C) : ChangedAt 12 C m (setPrev m p v) :=
  changedAt_store m v hp (by omega)

theorem combine_changed {C : Set ℕ} (hp : p ∈ C) (hn : nextOf h.mem q ∈ C) (happart : p + 12 ≤ q ∨ q + 12 ≤ p) :
    ChangedAt 12 C h.mem (combine h p q).mem := by
  have hnext : nextOf (setNext h.mem p (nextOf h.mem q)) q = nextOf h.mem q := load_store_of_disjoint _ _ (by omega)
  simp only [combine, hnext]
  exact (changedAt_setNext _ _ hp).trans (changedAt_setPrev _ _ hn)

theorem plugForward_changed (hk : k ≤ 30) (hs : Shape k h (xs ++ [b] ++ ys)) :
    ChangedAt 12 (headers (xs ++ [b] ++ ys)) h.mem (plugForward k h (total xs)).mem ∧
      nextOf (plugForward k h (total xs)).mem (total xs) ∈ headers (xs ++ [b] ++ ys) := by
  have h12 := (sizeof_spec hk).1
  obtain ⟨hp, hn⟩ := @mem_headers xs ys b
  obtain ⟨-, hhead, hlen, hseg, htotal⟩ := hs.middle
  simp only [plugForward, hhead.next]
  split
  · rename_i hfree
    cases ys with
    | nil =>
      rw [total] at htotal
      exact absurd htotal hfree.2.2
    | cons c ys =>
      obtain ⟨hc, hclen, -⟩ := hseg
      have hs' : xs ++ [b] ++ c :: ys = (xs ++ [b]) ++ [c] ++ ys := by simp
      have hend := (@mem_headers (xs ++ [b]) ys c).2
      rw [← hs', show total (xs ++ [b]) = total xs + b.len by simp [total]] at hend
      have hnext := hc.next
      refine ⟨combine_changed hp (by rw [hnext]; exact hend) (by omega), ?_⟩
      have hprev : nextOf (setNext h.mem (total xs) (total xs + b.len + c.len)) (total xs + b.len) =
          total xs + b.len + c.len := (load_store_of_disjoint _ _ (by omega)).trans hnext
      have hbound := hs.bound
      rw [total] at htotal
      simp only [combine, hnext, hprev]
      have hself : nextOf (setPrev (setNext h.mem (total xs) (total xs + b.len + c.len)) (total xs + b.len + c.len) (total xs))
          (total xs) = total xs + b.len + c.len :=
        (load_store_of_disjoint _ _ (by omega)).trans (load_store_self _ _ (by omega))
      rw [hself]
      exact hend
  · rw [hhead.next]
    exact ⟨ChangedAt.refl _, hn⟩

theorem plugBackward_changed (hk : k ≤ 30) (hs : Shape k h (xs ++ [b] ++ ys)) {C : Set ℕ}
    (hC : ∀ c ∈ (place 0 xs).map Prod.fst, c ∈ C) (hn : nextOf h.mem (total xs) ∈ C) :
    ChangedAt 12 C h.mem (plugBackward h (total xs)).mem := by
  have h12 := (sizeof_spec hk).1
  obtain ⟨hseg, hhead, -⟩ := hs.middle
  simp only [plugBackward, hhead.prev]
  split
  · rename_i hfree
    cases xs using List.reverseRecOn with
    | nil => exact absurd rfl hfree.1
    | append_singleton zs c _ =>
      have hclen := (seg_append.mp hseg).2.2.1
      have htotal : total (zs ++ [c]) = total zs + c.len := by simp [total]
      rw [lastStart_append, Nat.zero_add]
      refine combine_changed (hC _ (by simp [place])) hn ?_
      omega
  · exact ChangedAt.refl _

theorem plugHoles_changed (hk : k ≤ 30) (hs : Shape k h (xs ++ [b] ++ ys)) (hb : b.label = none) (hys : Compact ys)
    (hplug : plugHoles k h (total xs) = some h') : ChangedAt 12 (headers (xs ++ [b] ++ ys)) h.mem h'.mem := by
  rw [plugHoles] at hplug
  split at hplug
  · cases hplug
    obtain ⟨hforward, hnext⟩ := plugForward_changed hk hs
    obtain ⟨b', ys', hs', -⟩ := plugForward_spec hk hs hb hys
    refine hforward.trans (plugBackward_changed hk hs' (fun c hc => ?_) hnext)
    rw [headers_middle]
    exact Or.inl (Or.inl hc)
  · cases hplug

theorem splitBlock_changed (hk : k ≤ 30) (hs : Shape k h (xs ++ [b] ++ ys)) {l : ℕ} (hl : sizeofStructMem k ≤ l) :
    ChangedAt 12 (insert (total xs + l) (headers (xs ++ [b] ++ ys))) h.mem
      (splitBlock k h (total xs) (total xs + l)).mem := by
  have h12 := (sizeof_spec hk).1
  obtain ⟨-, hhead, hlen, -, htotal⟩ := hs.middle
  have hbound := hs.bound
  obtain ⟨hp, hn⟩ := @mem_headers xs ys b
  have hC : headers (xs ++ [b] ++ ys) ⊆ insert (total xs + l) (headers (xs ++ [b] ++ ys)) := Set.subset_insert _ _
  have hq := Set.mem_insert (total xs + l) (headers (xs ++ [b] ++ ys))
  have hnew := @isHeader_write (nextOf h.mem (total xs)) (total xs) h.mem (total xs + l) false (load_lt 4 _ _) (by omega)
  have hcut := ((changedAt_setMagic h.mem heapMagic hq).trans ((changedAt_setUsed _ 0 hq).trans
    ((changedAt_setNext _ (nextOf h.mem (total xs)) hq).trans (changedAt_setPrev _ (total xs) hq)))).trans
      (changedAt_setNext _ (total xs + l) (hC hp))
  have hnext : nextOf (setNext (setPrev (setNext (setUsed (setMagic h.mem (total xs + l) heapMagic) (total xs + l) 0)
      (total xs + l) (nextOf h.mem (total xs))) (total xs + l) (total xs)) (total xs) (total xs + l)) (total xs + l) =
        total xs + b.len :=
    (load_store_of_disjoint _ _ (by omega)).trans (hnew.next.trans hhead.next)
  simp only [splitBlock, hnext]
  split
  · exact hcut.trans (changedAt_setPrev _ _ (hC hn))
  · exact hcut

theorem takeBlock_changed (hk : k ≤ 30) (hs : Shape k h (xs ++ [b] ++ ys)) {size : ℕ}
    (hlen : sizeofStructMem k + size ≤ b.len) :
    ChangedAt 12 (insert (total xs + (sizeofStructMem k + size)) (headers (xs ++ [b] ++ ys))) h.mem
      (takeBlock k h (total xs) size).mem := by
  have hbound := hs.bound
  have hle := hs.len_le
  have hp : total xs ∈ insert (total xs + (sizeofStructMem k + size)) (headers (xs ++ [b] ++ ys)) :=
    Set.mem_insert_of_mem _ mem_headers.1
  have hq : add 32 (add 32 (total xs) (sizeofStructMem k)) size = total xs + (sizeofStructMem k + size) := by
    rw [add_add_of_lt (by omega), Nat.add_assoc]
  simp only [takeBlock, hq]
  split
  · exact (splitBlock_changed hk hs (Nat.le_add_right _ _)).trans
      ((changedAt_setUsed _ 1 hp).trans (changedAt_setMagic _ heapMagic hp))
  · exact (changedAt_setUsed _ 1 hp).trans (changedAt_setMagic _ heapMagic hp)

theorem advanceLfree_mem (hadv : advanceLfree k h p = some h') : h'.mem = h.mem := by
  rw [advanceLfree] at hadv
  split at hadv
  · obtain ⟨q, -, hq⟩ := Option.bind_eq_some_iff.mp hadv
    split at hq
    · cases hq
      rfl
    · cases hq
  · cases hadv
    rfl

/-! ### What is kept -/

/-- `rt_malloc` leaves the data of the blocks in use alone. -/
theorem rtMalloc_data (hk : k ≤ 30) (hi : Inv k h bs) {size : ℕ} (hmalloc : rtMalloc k h size = some (h', r))
    {x : ℕ × Tile ℕ} (hx : x ∈ held 0 bs) : Set.EqOn h'.mem h.mem (dataOf k x) := by
  obtain ⟨hplace, hlabel⟩ := List.mem_filter.mp hx
  by_cases hpos : size = 0
  · rw [rtMalloc, if_pos hpos] at hmalloc
    cases hmalloc
    exact Set.eqOn_refl _ _
  · rw [rtMalloc_eq hk hi hpos] at hmalloc
    cases hfit : firstFit k h (request k size) with
    | none =>
      rw [hfit] at hmalloc
      cases hmalloc
      exact Set.eqOn_refl _ _
    | some p =>
      obtain ⟨xs, b, ys, rfl, rfl, hb, hlen⟩ := firstFit_tile hk hi.shape hfit
      rw [hfit] at hmalloc
      obtain ⟨h₁, hadv, hif⟩ := Option.bind_eq_some_iff.mp hmalloc
      split at hif
      · cases hif
        rw [advanceLfree_mem hadv]
        have htile : (total xs, b) ∈ place 0 (xs ++ [b] ++ ys) := by simp [place]
        refine data_kept hk (takeBlock_changed hk hi.shape hlen) hplace htile ?_ ⟨by omega, ?_⟩
        · intro he
          rw [place_unique (hi.shape.pos hk) hplace htile he, hb] at hlabel
          cases hlabel
        · show _ ≤ total xs + b.len
          omega
      · cases hif

theorem rtFree_data (hk : k ≤ 30) (hi : Inv k h (xs ++ [b] ++ ys)) {n rmem : ℕ} (hb : b.label = some n)
    (hrmem : rmem = h.heapPtr + total xs + sizeofStructMem k) (hfree : rtFree k h rmem = some h') {x : ℕ × Tile ℕ}
    (hx : x ∈ held 0 (xs ++ [b] ++ ys)) : Set.EqOn h'.mem h.mem (dataOf k x) := by
  rw [hrmem, rtFree_eq hk hi hb] at hfree
  have hcompact := hi.compact
  rw [List.append_assoc, List.singleton_append, compact_append_cons] at hcompact
  have hp := (@mem_headers xs ys b).1
  have hplug := plugHoles_changed hk (release_shape hk hi.shape) rfl hcompact.2.1 hfree
  have hsame : headers (xs ++ [⟨b.len, none⟩] ++ ys) = headers (xs ++ [b] ++ ys) := by
    rw [headers_middle, headers_middle]
  rw [hsame] at hplug
  exact headers_kept hk (((changedAt_setUsed h.mem 0 hp).trans (changedAt_setMagic _ heapMagic hp)).trans hplug)
    (List.mem_filter.mp hx).1

theorem headers_split {l rest : ℕ} {label : Option ℕ} (hlen : l + rest = b.len) :
    headers ((xs ++ [⟨l, label⟩]) ++ [⟨rest, none⟩] ++ ys) = insert (total xs + l) (headers (xs ++ [b] ++ ys)) := by
  have htotal : total (xs ++ [(⟨l, label⟩ : Tile ℕ)]) = total xs + l := by simp [total]
  rw [headers_middle, headers_middle, htotal]
  simp only [place_append, List.map_append, place, List.map_cons, List.map_nil, List.mem_append, List.mem_singleton,
    Nat.zero_add, Nat.add_assoc, hlen]
  ext c
  simp only [Set.mem_union, Set.mem_ofPred_eq, Set.mem_singleton_iff, Set.mem_insert_iff]
  tauto

/-- The block that is split in place keeps the data that it is to keep, and the others keep theirs. -/
theorem reallocSplit_data (hk : k ≤ 30) {size : ℕ} (hs : Shape k h (xs ++ [b] ++ ys)) (hc : Compact ys)
    (hdvd : 2 ^ k ∣ size) (hlen : sizeofStructMem k + size + sizeofStructMem k ≤ b.len)
    (hplug : plugHoles k (splitBlock k h (total xs) (total xs + (sizeofStructMem k + size)))
      (total xs + (sizeofStructMem k + size)) = some h') :
    Set.EqOn h'.mem h.mem (Set.Ico (total xs + sizeofStructMem k) (total xs + sizeofStructMem k + size)) ∧
      ∀ x ∈ held 0 (xs ++ [b] ++ ys), x.1 ≠ total xs → Set.EqOn h'.mem h.mem (dataOf k x) := by
  have hcut := splitBlock_data hk hs hdvd hlen
  rw [← List.append_assoc] at hcut
  have htotal : total (xs ++ [(⟨sizeofStructMem k + size, b.label⟩ : Tile ℕ)]) = total xs + (sizeofStructMem k + size) := by
    simp [total]
  have hsplit := splitBlock_changed hk hs (Nat.le_add_right (sizeofStructMem k) size)
  have hheaders := @headers_split xs ys b (sizeofStructMem k + size) (b.len - (sizeofStructMem k + size)) b.label (by omega)
  rw [← htotal] at hcut hplug hsplit hheaders
  have hchanged := plugHoles_changed hk hcut rfl hc hplug
  have hall := hsplit.trans (hheaders ▸ hchanged)
  constructor
  · rw [← hheaders] at hall
    have hx : (total xs, (⟨sizeofStructMem k + size, b.label⟩ : Tile ℕ)) ∈ place 0
        (xs ++ [⟨sizeofStructMem k + size, b.label⟩] ++ [⟨b.len - (sizeofStructMem k + size), none⟩] ++ ys) := by
      simp [place]
    have hkept := headers_kept hk hall hx
    rw [dataOf] at hkept
    simp only [← Nat.add_assoc] at hkept
    exact hkept
  · intro x hx hne
    have hy : (total xs, b) ∈ place 0 (xs ++ [b] ++ ys) := by simp [place]
    rw [htotal] at hall
    refine data_kept hk hall (List.mem_filter.mp hx).1 hy hne ⟨Nat.le_add_right _ _, ?_⟩
    simp only
    omega

theorem reallocMove_data (hk : k ≤ 30) {n size newsize : ℕ} (hi : Inv k h (xs ++ [b] ++ ys)) (hb : b.label = some n)
    (hsize : size = b.len - sizeofStructMem k) (hcopy : newsize ≤ request k newsize)
    (hmove : reallocMove k h (h.heapPtr + total xs + sizeofStructMem k) size newsize = some (h', r)) (hne : r ≠ 0) :
    ∃ p, r = h.heapPtr + p + sizeofStructMem k ∧
      (∀ i, i < min size newsize → h'.mem (p + sizeofStructMem k + i) = h.mem (total xs + sizeofStructMem k + i)) ∧
      ∀ x ∈ held 0 (xs ++ [b] ++ ys), x.1 ≠ total xs → Set.EqOn h'.mem h.mem (dataOf k x) := by
  have h12 := (sizeof_spec hk).1
  have hlen := hi.shape.middle.2.2.1
  have hmem : (total xs, b) ∈ held 0 (xs ++ [b] ++ ys) := by
    rw [held_middle_of_some xs ys hb, Nat.zero_add]
    simp
  obtain ⟨⟨h₁, r₁⟩, hmalloc, hrest⟩ := Option.bind_eq_some_iff.mp hmove
  obtain ⟨h₂, r₂, hr, hspec⟩ := rtMalloc_spec hk hi hcopy
  cases hmalloc.symm.trans hr
  simp only at hrest
  rcases hspec with ⟨rfl, -⟩ | ⟨bs₁, p, l, rfl, -, hl, hi₁, hptr, hadds, -⟩
  · cases hrest
    exact absurd rfl hne
  · rw [if_neg (by omega), hptr] at hrest
    obtain ⟨h₂, hfree, hpair⟩ := Option.map_eq_some_iff.mp hrest
    cases hpair
    have hnew := (hadds.mem_iff (p, ⟨l, some newsize⟩)).mpr (Or.inl rfl)
    have hold : ∀ x ∈ held 0 (xs ++ [b] ++ ys), x ∈ held 0 bs₁ := fun x hx => (hadds.mem_iff x).mpr (Or.inr hx)
    have hcopied := @Inv.copy k h₁ bs₁ hk (p, ⟨l, some newsize⟩) _ (h.heapPtr + total xs + sizeofStructMem k - h.heapPtr) _ hi₁ hnew
      (show h.heapPtr + p + sizeofStructMem k - h.heapPtr = p + sizeofStructMem k by omega)
      (show sizeofStructMem k + (if size < newsize then size else newsize) ≤ l by split <;> omega)
    obtain ⟨xs₂, ys₂, n₂, hbs₂, htotal, hb₂⟩ := exists_append_of_mem_held (hold _ hmem)
    rw [hptr, hbs₂] at hcopied
    rw [hbs₂] at hnew hold
    have hkept : ∀ x ∈ held 0 (xs₂ ++ [b] ++ ys₂), Set.EqOn h'.mem (rtMemcpy h₁.mem
        (h.heapPtr + p + sizeofStructMem k - h.heapPtr) (h.heapPtr + total xs + sizeofStructMem k - h.heapPtr)
        (if size < newsize then size else newsize)) (dataOf k x) := fun x hx =>
      rtFree_data hk hcopied hb₂ (by rw [← htotal]) hfree hx
    have hmalloc' : ∀ x ∈ held 0 (xs ++ [b] ++ ys), Set.EqOn h₁.mem h.mem (dataOf k x) := fun x hx =>
      rtMalloc_data hk hi hmalloc hx
    refine ⟨p, rfl, fun i hi' => ?_, fun x hx hne' y hy => ?_⟩
    · have hin : p + sizeofStructMem k + i ∈ dataOf k (p, (⟨l, some newsize⟩ : Tile ℕ)) :=
        ⟨Nat.le_add_right _ _, by simp only; omega⟩
      have hsrc : total xs + sizeofStructMem k + i ∈ dataOf k (total xs, b) :=
        ⟨Nat.le_add_right _ _, by simp only; omega⟩
      rw [hkept _ hnew hin, rtMemcpy, if_pos (by split <;> omega), ← hmalloc' _ hmem hsrc]
      congr 1
      omega
    · have hapart := place_apart (List.mem_filter.mp (hold x hx)).1 (List.mem_filter.mp hnew).1
        fun he => hadds.ne hi₁ hx (congrArg Prod.fst he)
      obtain ⟨hlo, hhi⟩ := hy
      rw [hkept x (hold x hx) ⟨hlo, hhi⟩, rtMemcpy_of_out, hmalloc' x hx ⟨hlo, hhi⟩]
      simp only at hapart
      split <;> omega

theorem rtRealloc_data (hk : k ≤ 30) {n newsize : ℕ} (hi : Inv k h (xs ++ [b] ++ ys)) (hb : b.label = some n)
    (hsize : newsize + (2 ^ k - 1) < 2 ^ 32) (hpos : 0 < newsize)
    (hrealloc : rtRealloc k h (h.heapPtr + total xs + sizeofStructMem k) newsize = some (h', r)) (hne : r ≠ 0) :
    ∃ p, r = h.heapPtr + p + sizeofStructMem k ∧ (∀ i, i < min (b.len - sizeofStructMem k) newsize →
      h'.mem (p + sizeofStructMem k + i) = h.mem (total xs + sizeofStructMem k + i)) ∧
      ∀ x ∈ held 0 (xs ++ [b] ++ ys), x.1 ≠ total xs → Set.EqOn h'.mem h.mem (dataOf k x) := by
  have hup := (alignUp_spec hsize).1
  rw [rtRealloc_eq hk hi hb hsize hpos] at hrealloc
  split at hrealloc
  · cases hrealloc
    exact absurd rfl hne
  · rename_i hle
    split at hrealloc
    · cases hrealloc
      exact ⟨total xs, rfl, fun _ _ => rfl, fun x _ _ => Set.eqOn_refl _ _⟩
    · split at hrealloc
      · rename_i hsplit
        rw [SplitsTile, minSize] at hsplit
        obtain ⟨h₁, hplug, hpair⟩ := Option.map_eq_some_iff.mp hrealloc
        cases hpair
        have hcompact := hi.compact
        rw [List.append_assoc, List.singleton_append, compact_append_cons] at hcompact
        obtain ⟨hkept, hothers⟩ := reallocSplit_data hk (hi.shape.setUsedMem _) hcompact.2.1 (dvd_alignUp k newsize)
          (by omega) hplug
        exact ⟨total xs, rfl, fun i hi' => hkept ⟨Nat.le_add_right _ _, by omega⟩, hothers⟩
      · obtain ⟨p, hr, hkept, hothers⟩ := reallocMove_data hk hi hb rfl
          (le_request (hi.shape.align_lt hk (not_lt.mp hle))) hrealloc hne
        exact ⟨p, hr, fun i hi' => hkept i (by omega), hothers⟩

/-! ### Every run -/

/-- The byte at an address. -/
def Heap.byte (h : Heap) (a : ℕ) : BitVec 8 := h.mem (a - h.heapPtr)

/-- The data size of the block of a pointer. -/
def Heap.room (k : ℕ) (h : Heap) (r : ℕ) : ℕ := dataSize k h.mem (h.block k r)

/-- The block at `r` is in use, and has its size and its data from before. -/
def SameBlock (k : ℕ) (h h' : Heap) (r : ℕ) : Prop :=
  usedOf h'.mem (h'.block k r) ≠ 0 ∧ h'.room k r = h.room k r ∧ ∀ i, i < h.room k r → h'.byte (r + i) = h.byte (r + i)

/-- `rt_realloc` returns, and fails and changes nothing, or returns a block with the data of the old one, and leaves the
other blocks alone. -/
def ReallocKeeps (k : ℕ) (s : Sys) (rmem newsize : ℕ) : Prop :=
  ∃ h' r, rtRealloc k s.heap rmem newsize = some (h', r) ∧ (r = 0 → h' = s.heap) ∧
    (r ≠ 0 → (∀ i, i < min (s.heap.room k rmem) newsize → h'.byte (r + i) = s.heap.byte (rmem + i)) ∧
      ∀ r', r' ≠ rmem → (s.live r').isSome = true → r' ≠ r ∧ SameBlock k s.heap h' r')

theorem Shape.room_eq (hs : Shape k h bs) {x : ℕ × Tile ℕ} (hx : x ∈ place 0 bs) :
    h.room k (h.heapPtr + x.1 + sizeofStructMem k) = x.2.len - sizeofStructMem k := by
  obtain ⟨xs, ys, rfl, hp⟩ := exists_append_of_mem_place hx
  rw [Heap.room, block_eq, hp, Nat.zero_add, dataSize_eq hs]

theorem sameBlock_of_held (hs : Shape k h bs) (hptr : h'.heapPtr = h.heapPtr) {bs' : List (Tile ℕ)} (hs' : Shape k h' bs')
    {x : ℕ × Tile ℕ} (hx : x ∈ held 0 bs) (hx' : x ∈ held 0 bs') (hdata : Set.EqOn h'.mem h.mem (dataOf k x)) :
    SameBlock k h h' (h.heapPtr + x.1 + sizeofStructMem k) := by
  obtain ⟨hplace, hlabel⟩ := List.mem_filter.mp hx
  have hplace' := (List.mem_filter.mp hx').1
  have hroom := hs.room_eq hplace
  have hroom' := hs'.room_eq hplace'
  rw [hptr] at hroom'
  refine ⟨?_, hroom'.trans hroom.symm, fun i hi => ?_⟩
  · rw [← hptr, block_eq, (hs'.seg.header hplace').1, hlabel]
    exact Nat.one_ne_zero
  · rw [hroom] at hi
    rw [Heap.byte, Heap.byte, hptr]
    exact hdata ⟨by omega, by omega⟩

theorem realloc_keeps (hk : k ≤ 30) (hg : Good k s) {rmem newsize : ℕ} (hlive : (s.live rmem).isSome = true)
    (hsize : newsize + (2 ^ k - 1) < 2 ^ 32) (hpos : 0 < newsize) : ReallocKeeps k s rmem newsize := by
  have h12 := (sizeof_spec hk).1
  obtain ⟨bs, hi, ht⟩ := hg
  obtain ⟨xs, b, ys, n, rfl, -, hb, rfl⟩ := ht.block hlive
  obtain ⟨h', r, hrealloc, hspec⟩ := rtRealloc_spec hk hi hb hsize hpos
  have hmem : (total xs, b) ∈ place 0 (xs ++ [b] ++ ys) := by simp [place]
  have hroom := hi.shape.room_eq hmem
  rcases hspec with ⟨rfl, hsame, -⟩ | ⟨bs', p, l, rfl, hi', hptr, hmoves, -⟩
  · exact ⟨h', 0, hrealloc, fun _ => hsame, fun hne => absurd rfl hne⟩
  · refine ⟨h', _, hrealloc, fun hnull => absurd hnull (by omega), fun hne => ⟨fun i hlt => ?_, fun r' hne' hlive' => ?_⟩⟩
    · obtain ⟨q, hq, hkept, -⟩ := rtRealloc_data hk hi hb hsize hpos hrealloc hne
      rw [hroom] at hlt
      have hbyte := hkept i hlt
      rw [Heap.byte, Heap.byte, hptr, show s.heap.heapPtr + p + sizeofStructMem k + i - s.heap.heapPtr =
        q + sizeofStructMem k + i by omega, hbyte]
      congr 1
      omega
    · obtain ⟨m, hm⟩ := Option.isSome_iff_exists.mp hlive'
      obtain ⟨x, hx, -, rfl⟩ := (ht r' m).mp hm
      obtain ⟨-, -, -, hothers⟩ := rtRealloc_data hk hi hb hsize hpos hrealloc hne
      have hother : x.1 ≠ total xs := by
        intro he
        rw [he] at hne'
        exact hne' rfl
      have hnew := hmoves.ne x hx hother
      simp only at hnew
      refine ⟨by omega, sameBlock_of_held hi.shape hptr hi'.shape hx ?_ (hothers x hx hother)⟩
      exact (hmoves.mem_iff x).mpr (Or.inr ⟨hx, hother⟩)

end RtThread.Memory.SmallMem
