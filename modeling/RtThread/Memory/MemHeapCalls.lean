import RtThread.Memory.MemHeapOps

/-!
# Release and change of size

A block that is freed passes through states in which its tile is vacant but not in the free list:
`Loose` is `Shape` with the items that are still to be put into the list, and without the demand
that no two neighbours are vacant.
-/

namespace RtThread.Memory.MemHeap

open RtThread.Lib.Rings RtThread.Lib.Tiling RtThread.Lib.Word

structure Loose (k : ℕ) (h : Memheap) (bs : List (Tile ℕ)) (fl pending : List ℕ) : Prop where
  blocks : Blocks k h bs
  free : FreeRing h fl
  perm : (pending ++ fl).Perm (vacant h.startAddr bs)
  outside : h.freeList < h.startAddr ∨ h.startAddr + h.poolSize ≤ h.freeList
  available : h.availableSize = spare k bs
  roomy : ∀ b ∈ bs, Roomy k b

variable {k : ℕ} {h : Memheap} {xs ys : List (Tile ℕ)} {a b : Tile ℕ} {fl pending : List ℕ}

theorem Loose.shape {bs : List (Tile ℕ)} (hl : Loose k h bs fl []) (hcompact : Compact bs) : Shape k h bs fl :=
  ⟨hl.blocks, hl.free, hl.perm, hl.outside, hcompact, hl.available, hl.roomy⟩

theorem Loose.available_lt {bs : List (Tile ℕ)} (hl : Loose k h bs fl pending) :
    h.availableSize + memheapSize k ≤ h.poolSize ∧ h.poolSize < 2 ^ 32 := by
  have htotal := hl.blocks.total_eq
  have hspare := @spare_le k bs
  rw [hl.available]
  exact ⟨by omega, hl.blocks.bound.2⟩

theorem Loose.insert {bs : List (Tile ℕ)} {p : ℕ} (hk : k ≤ 30) (hl : Loose k h bs fl [p]) :
    Loose k (insertFree h p) bs (p :: fl) [] := by
  have hnodup := free_nodup hk hl.blocks hl.outside hl.perm
  simp only [List.cons_append, List.nil_append] at hnodup
  have hfresh : p ∉ h.freeList :: fl := by
    simp only [List.nodup_cons, List.mem_cons, not_or] at hnodup ⊢
    exact ⟨fun he => hnodup.1.1 he.symm, hnodup.2.1⟩
  have hring := hl.free.insertFree (hnodup.sublist ((List.sublist_cons_self _ _).cons_cons _)) hfresh
  exact ⟨hl.blocks.of_fields rfl rfl rfl rfl rfl rfl rfl, hring, hl.perm, hl.outside, hl.available, hl.roomy⟩

theorem spare_join (ha : a.label = none) (hb : b.label = none) (hla : memheapSize k ≤ a.len) (hlb : memheapSize k ≤ b.len) :
    spare k (xs ++ ⟨a.len + b.len, a.label⟩ :: ys) = spare k (xs ++ a :: b :: ys) + memheapSize k := by
  rw [spare_append, spare_append, spare_cons_of_none _ ha, spare_cons_of_none _ hb, spare_cons_of_none _ (by exact ha)]
  simp only
  omega

theorem roomy_join (hroomy : ∀ c ∈ xs ++ a :: b :: ys, Roomy k c) :
    ∀ c ∈ xs ++ ⟨a.len + b.len, a.label⟩ :: ys, Roomy k c := by
  simp only [List.forall_mem_append, List.forall_mem_cons] at hroomy ⊢
  refine ⟨hroomy.1, fun i hi => ?_, hroomy.2.2.2⟩
  have := hroomy.2.1 i hi
  show _ ≤ a.len + b.len
  omega

/-- `rt_memheap_free` up to the merging (`memheap.c:529-533`). -/
theorem unuse_spec (hk : k ≤ 30) (hs : Shape k h (xs ++ b :: ys) fl) (hused : b.label.isSome = true) :
    Loose k ((unuseItem h (h.startAddr + total xs)).withAvailable (add 32 (unuseItem h (h.startAddr + total xs)).availableSize
        (memitemSize k (unuseItem h (h.startAddr + total xs)) (h.startAddr + total xs))))
      (xs ++ ⟨b.len, none⟩ :: ys) fl [h.startAddr + total xs] := by
  have hb := hs.blocks
  obtain ⟨n, hn⟩ := Option.isSome_iff_exists.mp hused
  have hmask : mark none = mark b.label &&& memheapMask := (mark_mask b.label).symm
  have hblocks : Blocks k (unuseItem h (h.startAddr + total xs)) (xs ++ ⟨b.len, none⟩ :: ys) := by
    have hmark := hb.setMark hk none
    rwa [hmask, ← hb.item_eq.1] at hmark
  have hsize : memitemSize k (unuseItem h (h.startAddr + total xs)) (h.startAddr + total xs) = b.len - memheapSize k :=
    @Blocks.size_eq k _ xs ys ⟨b.len, none⟩ hk hblocks
  have havail : (unuseItem h (h.startAddr + total xs)).availableSize = spare k xs + spare k ys := by
    show h.availableSize = _
    rw [hs.available, spare_append, spare_cons_of_some _ hused]
  have hspare := @spare_le k (xs ++ ⟨b.len, none⟩ :: ys)
  have htotal := hblocks.total_eq
  have hbound := hb.bound
  have hpool : (unuseItem h (h.startAddr + total xs)).poolSize = h.poolSize := rfl
  have hH := memheapSize_spec hk
  rw [hsize, havail]
  rw [spare_append, spare_cons_of_none _ rfl] at hspare
  simp only at hspare
  rw [add_of_lt (by omega)]
  refine ⟨hblocks.of_fields rfl rfl rfl rfl rfl rfl rfl, hs.free, ?_, hs.outside, ?_, ?_⟩
  · show ([h.startAddr + total xs] ++ fl).Perm (vacant h.startAddr _)
    have hperm := hs.perm
    rw [vacant_append, vacant_cons_of_some _ hused] at hperm
    rw [vacant_append, vacant_cons_of_none _ rfl]
    exact (hperm.cons _).trans List.perm_middle.symm
  · rw [spare_append, spare_cons_of_none _ rfl]
    show spare k xs + spare k ys + (b.len - memheapSize k) = _
    simp only
    omega
  · refine @roomy_middle k xs ys b [⟨b.len, none⟩] hs.roomy fun c hc i hi => ?_
    rw [List.mem_singleton.mp hc] at hi
    cases hi

/-- The fields that only a request changes. -/
def SameCounts (h h' : Memheap) : Prop :=
  h'.startAddr = h.startAddr ∧ h'.poolSize = h.poolSize ∧ h'.maxUsedSize = h.maxUsedSize ∧ h'.peak = h.peak

/-- Memory is given back: `available_size` becomes more, and nothing is counted. -/
structure GivesBack (h h' : Memheap) : Prop where
  same : SameCounts h h'
  available_le : h.availableSize ≤ h'.availableSize

theorem GivesBack.refl (h : Memheap) : GivesBack h h := ⟨⟨rfl, rfl, rfl, rfl⟩, le_rfl⟩

theorem GivesBack.startAddr {g : Memheap} (hg : GivesBack h g) : g.startAddr = h.startAddr := hg.same.1

theorem GivesBack.trans {g i : Memheap} (hg : GivesBack h g) (hi : GivesBack g i) : GivesBack h i := by
  obtain ⟨⟨hstart, hpool, hmax, hpeak⟩, hle⟩ := hg
  obtain ⟨⟨hstart', hpool', hmax', hpeak'⟩, hle'⟩ := hi
  exact ⟨⟨hstart'.trans hstart, hpool'.trans hpool, hmax'.trans hmax, hpeak'.trans hpeak⟩, hle.trans hle'⟩

theorem Counted.giveBack {g : Memheap} (hc : Counted h) (hg : GivesBack h g) (hpool : g.availableSize ≤ g.poolSize)
    (hlt : g.poolSize < 2 ^ 32) : Counted g := by
  obtain ⟨⟨-, hsize, hmax, hpeak⟩, hle⟩ := hg
  refine ⟨hmax.trans (hc.1.trans hpeak.symm), ?_⟩
  have hused := hc.2
  rw [used_eq (by omega) (by omega)] at hused
  rw [used_eq hpool hlt, hpeak]
  omega

theorem sameCounts_unuse (p x : ℕ) : SameCounts h ((unuseItem h p).withAvailable x) := ⟨rfl, rfl, rfl, rfl⟩

theorem sameCounts_merge (p q x : ℕ) : SameCounts h (mergeItem (h.withAvailable x) p q) := ⟨rfl, rfl, rfl, rfl⟩

theorem sameCounts_join (p q x : ℕ) : SameCounts h (removeFree (mergeItem (h.withAvailable x) p q) q) :=
  ⟨rfl, rfl, rfl, rfl⟩

theorem givesBack_insertFree (p : ℕ) : GivesBack h (insertFree h p) := ⟨⟨rfl, rfl, rfl, rfl⟩, le_rfl⟩

theorem Loose.joinPrev (hk : k ≤ 30) (ha : a.label = none) (hb : b.label = none)
    (hl : Loose k h (xs ++ a :: b :: ys) fl [h.startAddr + total xs + a.len]) :
    Loose k (mergeItem (h.withAvailable (add 32 h.availableSize (memheapSize k))) (h.startAddr + total xs)
      (h.startAddr + total xs + a.len)) (xs ++ ⟨a.len + b.len, a.label⟩ :: ys) fl [] ∧
    GivesBack h (mergeItem (h.withAvailable (add 32 h.availableSize (memheapSize k))) (h.startAddr + total xs)
      (h.startAddr + total xs + a.len)) := by
  have hjoin := @spare_join k xs ys a b ha hb (hl.blocks.len a (by simp)) (hl.blocks.len b (by simp))
  have hblocks := hl.blocks.mergeItem hk
  have hle := @spare_le k (xs ++ ⟨a.len + b.len, a.label⟩ :: ys)
  have htotal := hblocks.total_eq
  have hbound := hl.blocks.bound
  have hpool : (mergeItem h (h.startAddr + total xs) (h.startAddr + total xs + a.len)).poolSize = h.poolSize := rfl
  have havail := hl.available
  rw [add_of_lt (by omega)]
  refine ⟨⟨hblocks.of_fields rfl rfl rfl rfl rfl rfl rfl, hl.free, ?_, hl.outside, ?_, roomy_join hl.roomy⟩,
    sameCounts_merge _ _ _, Nat.le_add_right _ _⟩
  · exact (hl.perm.trans (vacant_join h.startAddr hb)).cons_inv
  · show h.availableSize + memheapSize k = _
    omega

theorem Loose.joinNext (hk : k ≤ 30) (ha : a.label = none) (hb : b.label = none)
    (hl : Loose k h (xs ++ a :: b :: ys) fl pending) (hpending : h.startAddr + total xs + a.len ∉ pending) :
    ∃ fl', Loose k (removeFree (mergeItem (h.withAvailable (add 32 h.availableSize (memheapSize k)))
      (h.startAddr + total xs) (h.startAddr + total xs + a.len)) (h.startAddr + total xs + a.len))
        (xs ++ ⟨a.len + b.len, a.label⟩ :: ys) fl' pending ∧
      GivesBack h (removeFree (mergeItem (h.withAvailable (add 32 h.availableSize (memheapSize k)))
        (h.startAddr + total xs) (h.startAddr + total xs + a.len)) (h.startAddr + total xs + a.len)) := by
  have hjoin := @spare_join k xs ys a b ha hb (hl.blocks.len a (by simp)) (hl.blocks.len b (by simp))
  have hle := @spare_le k (xs ++ ⟨a.len + b.len, a.label⟩ :: ys)
  have hbound := hl.blocks.bound
  have havail := hl.available
  obtain ⟨fl', hblocks, hring, hperm⟩ := join_spec hk hl.blocks hb hl.free hl.outside hl.perm hpending
    (add 32 h.availableSize (memheapSize k))
  have htotal : total (xs ++ ⟨a.len + b.len, a.label⟩ :: ys) + memheapSize k = h.poolSize := hblocks.total_eq
  have hadd : add 32 h.availableSize (memheapSize k) = h.availableSize + memheapSize k := add_of_lt (by omega)
  refine ⟨fl', ⟨hblocks, hring, hperm, hl.outside, ?_, roomy_join hl.roomy⟩, sameCounts_join _ _ _, ?_⟩
  · show add 32 h.availableSize (memheapSize k) = _
    omega
  · show h.availableSize ≤ add 32 h.availableSize (memheapSize k)
    omega

/-- `insert_header` says whether the merged item is still to be put into the free list. -/
def leftOut (insertHeader : Bool) (p : ℕ) : List ℕ := if insertHeader = true then [p] else []

theorem mergePrev_spec (hk : k ≤ 30) (hl : Loose k h (xs ++ b :: ys) fl [h.startAddr + total xs]) (hb : b.label = none)
    (hcompact : Compact xs) :
    ∃ xs' len insertHeader h', mergePrev k h (h.startAddr + total xs) = (h.startAddr + total xs', insertHeader, h') ∧
      Loose k h' (xs' ++ ⟨len, none⟩ :: ys) fl (leftOut insertHeader (h.startAddr + total xs')) ∧ GivesBack h h' ∧
      labelAt h.startAddr (xs' ++ ⟨len, none⟩ :: ys) = labelAt h.startAddr (xs ++ b :: ys) ∧
      Compact xs' ∧ ∀ a ∈ xs'.getLast?, a.label.isSome = true := by
  have hpos := hl.blocks.pos hk
  rcases List.eq_nil_or_concat xs with rfl | ⟨zs, a, hconcat⟩
  · -- the item before the first is the tailer
    have hused : h.isUsed (h.prev (h.startAddr + total ([] : List (Tile ℕ)))) := by
      rw [total, Nat.add_zero, Blocks.prev_first hl.blocks]
      exact hl.blocks.tail_isUsed
    refine ⟨[], b.len, true, h, ?_, ?_, GivesBack.refl h, ?_, hcompact, fun a ha => (by cases ha)⟩
    · rw [mergePrev, if_neg (not_not.mpr hused)]
    · rw [← hb]
      exact hl
    · rw [← hb]
  · rw [List.concat_eq_append] at hconcat
    subst hconcat
    have hsplit : zs ++ [a] ++ b :: ys = zs ++ a :: b :: ys := List.append_cons zs a (b :: ys) ▸ rfl
    have hplace : h.startAddr + total (zs ++ [a]) = h.startAddr + total zs + a.len := by
      rw [total_append, total, total, Nat.add_zero, Nat.add_assoc]
    rw [hsplit, hplace] at hl
    rw [hsplit] at hpos
    have hprev := hl.blocks.prev_eq
    have hiff := hl.blocks.isUsed_iff
    rw [hplace, hsplit, mergePrev, hprev]
    by_cases hused : h.isUsed (h.startAddr + total zs)
    · refine ⟨zs ++ [a], b.len, true, h, ?_, ?_, GivesBack.refl h, ?_, hcompact, fun c hc => ?_⟩
      · rw [if_neg (not_not.mpr hused), hplace]
      · rw [← hb, hsplit, hplace]
        exact hl
      · rw [← hb, hsplit]
      · rw [List.getLast?_concat, Option.mem_some_iff] at hc
        exact hc ▸ hiff.mp hused
    · have ha : a.label = none := Option.not_isSome_iff_eq_none.mp fun hsome => hused (hiff.mpr hsome)
      obtain ⟨hjoin, hgives⟩ := hl.joinPrev hk ha hb
      rw [ha] at hjoin
      obtain ⟨hzs, -, hlast, -⟩ := compact_append_cons.mp hcompact
      refine ⟨zs, a.len + b.len, false, _, if_pos hused, hjoin, hgives, ?_, hzs, fun c hc => ?_⟩
      · rw [← @labelAt_join zs ys a b h.startAddr hpos hb, ha]
      · exact (hlast c hc).resolve_right (by rw [ha]; exact Bool.false_ne_true)

theorem mergeNext_spec (hk : k ≤ 30) (hl : Loose k h (xs ++ b :: ys) fl pending) (hb : b.label = none)
    (hcompact : Compact ys) (hpending : ∀ q ∈ pending, q = h.startAddr + total xs) :
    ∃ len ys' fl', Loose k (mergeNext k h (h.startAddr + total xs)) (xs ++ ⟨len, none⟩ :: ys') fl' pending ∧
      GivesBack h (mergeNext k h (h.startAddr + total xs)) ∧
      labelAt h.startAddr (xs ++ ⟨len, none⟩ :: ys') = labelAt h.startAddr (xs ++ b :: ys) ∧
      Compact ys' ∧ ∀ c ∈ ys'.head?, c.label.isSome = true := by
  have hpos := hl.blocks.pos hk
  have hlen : 0 < b.len := hpos b (by simp)
  have hnext := hl.blocks.next_eq
  have hiff := hl.blocks.next_vacant
  unfold mergeNext
  simp only [hnext]
  by_cases hused : h.isUsed (h.startAddr + total xs + b.len)
  · rw [if_neg (not_not.mpr hused)]
    refine ⟨b.len, ys, fl, ?_, GivesBack.refl h, ?_, hcompact, fun c hc => ?_⟩
    · rw [← hb]
      exact hl
    · rw [← hb]
    · by_contra hnone
      obtain ⟨zs, rfl⟩ : ∃ zs, ys = c :: zs := by
        cases ys with
        | nil => cases hc
        | cons d zs =>
          cases hc
          exact ⟨zs, rfl⟩
      exact hiff.mpr ⟨c, zs, rfl, Option.not_isSome_iff_eq_none.mp hnone⟩ hused
  · obtain ⟨c, zs, rfl, hc⟩ := hiff.mp hused
    rw [if_pos hused]
    obtain ⟨fl', hjoin, hgives⟩ := hl.joinNext hk hb hc fun hmem => by
      have := hpending _ hmem
      omega
    rw [hb] at hjoin
    obtain ⟨-, hzs, -, hhead⟩ := (@compact_append_cons ℕ [] zs c).mp hcompact
    refine ⟨b.len + c.len, zs, fl', hjoin, hgives, ?_, hzs, fun d hd => ?_⟩
    · rw [← @labelAt_join xs zs b c h.startAddr hpos hc, hb]
    · exact (hhead d hd).resolve_left (by rw [hc]; exact Bool.false_ne_true)

theorem Loose.leaves {g : Memheap} {bs : List (Tile ℕ)} (hl : Loose k g bs fl []) (hcompact : Compact bs)
    (hgives : GivesBack h g) (hc : Counted h) : Leaves k h g.record (labelAt h.startAddr bs) := by
  obtain ⟨hle, hlt⟩ := hl.available_lt
  exact ⟨hgives.startAddr, bs, fl, (hl.shape hcompact).record, (hc.giveBack hgives (by omega) hlt).record, rfl⟩

theorem rtMemheapFree_spec (hk : k ≤ 30) (hs : Shape k h (xs ++ b :: ys) fl) (hc : Counted h)
    (hused : b.label.isSome = true) :
    ∃ h', rtMemheapFree k h (h.startAddr + total xs + memheapSize k) = some h' ∧
      Leaves k h h' (Function.update (labelAt h.startAddr (xs ++ b :: ys)) (h.startAddr + total xs) none) := by
  have hH := memheapSize_spec hk
  have hb := hs.blocks
  obtain ⟨hlen, hend⟩ := hb.bounds
  have hbound := hb.bound
  have hxs : ∀ c ∈ xs, 0 < c.len := fun c hc => hb.pos hk c (by simp [hc])
  have hp : sub 32 (h.startAddr + total xs + memheapSize k) (memheapSize k) = h.startAddr + total xs := by
    rw [sub_of_le (Nat.le_add_left _ _) (by omega), Nat.add_sub_cancel]
  have hchecks : h.magic (h.startAddr + total xs) &&& memheapMask = memheapMagic ∧ h.isUsed (h.startAddr + total xs) ∧
      h.magic (h.next (h.startAddr + total xs)) &&& memheapMask = memheapMagic ∧
      h.poolPtr (h.startAddr + total xs) = h.self := by
    refine ⟨?_, hb.isUsed_iff.mpr hused, ?_, hb.item_eq.2⟩
    · rw [hb.item_eq.1]
      exact mark_mask b.label
    · rw [hb.next_eq]
      exact hb.next_magic
  obtain ⟨hcxs, hcys, -, -⟩ := compact_append_cons.mp hs.compact
  have hloose := unuse_spec hk hs hused
  rw [rtMemheapFree, if_neg (by omega), hp, if_pos hchecks]
  simp only
  generalize hg : (unuseItem h (h.startAddr + total xs)).withAvailable (add 32 (unuseItem h (h.startAddr + total xs)).availableSize
    (memitemSize k (unuseItem h (h.startAddr + total xs)) (h.startAddr + total xs))) = g at hloose ⊢
  have hgives : GivesBack h g := by
    have havail := hloose.available
    have hbefore := hs.available
    rw [spare_append, spare_cons_of_none _ rfl] at havail
    rw [spare_append, spare_cons_of_some _ hused] at hbefore
    refine ⟨hg ▸ sameCounts_unuse _ _, ?_⟩
    omega
  have hlabels : labelAt h.startAddr (xs ++ ⟨b.len, none⟩ :: ys) =
      Function.update (labelAt h.startAddr (xs ++ b :: ys)) (h.startAddr + total xs) none := labelAt_setMark hxs none
  rw [← hgives.startAddr] at hloose hlabels ⊢
  obtain ⟨xs', len, insertHeader, g₁, hmerge, hloose₁, hgives₁, hlabels₁, hcompact₁, hlast⟩ :=
    mergePrev_spec hk hloose rfl hcxs
  rw [hmerge]
  simp only
  rw [← hgives₁.startAddr] at hloose₁ ⊢
  obtain ⟨len', ys', fl', hloose₂, hgives₂, hlabels₂, hcompact₂, hhead⟩ := mergeNext_spec hk hloose₁ rfl hcys fun q hq => by
    cases insertHeader with
    | true => exact List.mem_singleton.mp hq
    | false => cases hq
  have hcompact : Compact (xs' ++ ⟨len', none⟩ :: ys') :=
    compact_append_cons.mpr ⟨hcompact₁, hcompact₂, fun c hc => Or.inl (hlast c hc), fun c hc => Or.inr (hhead c hc)⟩
  have hall := hgives.trans (hgives₁.trans hgives₂)
  rw [← hgives₁.startAddr] at hlabels hlabels₁
  rw [← hlabels, ← hlabels₁, ← hlabels₂, (hgives.trans hgives₁).startAddr]
  rw [(hgives.trans hgives₁).startAddr] at hloose₂ hall
  cases insertHeader with
  | false => exact ⟨_, rfl, hloose₂.leaves hcompact hall hc⟩
  | true =>
    have hinsert := Loose.insert hk hloose₂
    exact ⟨_, rfl, hinsert.leaves hcompact (hall.trans (givesBack_insertFree _)) hc⟩

/-! ### Change of size -/

theorem Shape.relabel (hk : k ≤ 30) {len m n : ℕ} (hs : Shape k h (xs ++ ⟨len, some m⟩ :: ys) fl)
    (hn : memheapSize k + max n memheapMinialloc ≤ len) : Shape k h (xs ++ ⟨len, some n⟩ :: ys) fl := by
  have hmark := hs.blocks.setMark hk (some n)
  have hsame : Function.update h.magic (h.startAddr + total xs) (mark (some n)) = h.magic := by
    rw [mark_some, ← mark_some m, ← hs.blocks.item_eq.1, Function.update_eq_self]
  rw [hsame] at hmark
  have hperm := hs.perm
  have havail := hs.available
  rw [vacant_append, vacant_cons_of_some _ rfl] at hperm
  rw [spare_append, spare_cons_of_some _ rfl] at havail
  refine ⟨hmark, hs.free, ?_, hs.outside, compact_of_some hs.compact, ?_, ?_⟩
  · rw [vacant_append, vacant_cons_of_some _ rfl]
    exact hperm
  · rw [spare_append, spare_cons_of_some _ rfl]
    exact havail
  · refine @roomy_middle k xs ys _ [⟨len, some n⟩] hs.roomy fun c hc i hi => ?_
    rw [List.mem_singleton.mp hc] at hi ⊢
    cases hi
    exact hn

theorem Loose.recount {bs : List (Tile ℕ)} (hl : Loose k h bs fl pending) {x : ℕ} (hx : x = spare k bs) :
    Loose k (h.withAvailable x) bs fl pending :=
  ⟨hl.blocks.of_fields rfl rfl rfl rfl rfl rfl rfl, hl.free, hl.perm, hl.outside, hx, hl.roomy⟩

theorem split_spec (hk : k ≤ 30) (hs : Shape k h (xs ++ a :: ys) fl) (hused : a.label.isSome = true) {len : ℕ}
    (hlen : memheapSize k ≤ len) (hrest : len + memheapSize k ≤ a.len)
    (hroomy : ∀ n, a.label = some n → memheapSize k + max n memheapMinialloc ≤ len) :
    Loose k ((newItem h (h.startAddr + total xs) (h.startAddr + total xs + len)).withAvailable
        (h.availableSize + (a.len - len - memheapSize k)))
      (xs ++ ⟨len, a.label⟩ :: ⟨a.len - len, none⟩ :: ys) fl [h.startAddr + total xs + len] := by
  have hb := hs.blocks
  have hend : h.startAddr + total xs + len + (a.len - len) = h.startAddr + total xs + a.len := by omega
  have hkept : (⟨len, a.label⟩ : Tile ℕ).label.isSome = true := hused
  have hperm := hs.perm
  have havail := hs.available
  rw [vacant_append, vacant_cons_of_some _ hused] at hperm
  rw [spare_append, spare_cons_of_some _ hused] at havail
  refine ⟨(hb.newItem hk hlen hrest).of_fields rfl rfl rfl rfl rfl rfl rfl, hs.free, ?_, hs.outside, ?_, ?_⟩
  · show ([h.startAddr + total xs + len] ++ fl).Perm (vacant h.startAddr _)
    rw [vacant_append, vacant_cons_of_some _ hkept, vacant_cons_of_none _ rfl, hend]
    exact (hperm.cons _).trans List.perm_middle.symm
  · rw [spare_append, spare_cons_of_some _ hkept, spare_cons_of_none _ rfl]
    show h.availableSize + (a.len - len - memheapSize k) = _
    simp only
    omega
  · refine @roomy_middle k xs ys a [⟨len, a.label⟩, ⟨a.len - len, none⟩] hs.roomy fun c hc i hi => ?_
    simp only [List.mem_cons, List.not_mem_nil, or_false] at hc
    rcases hc with rfl | rfl
    · exact hroomy i hi
    · cases hi

theorem sameCounts_absorb (p : ℕ) : SameCounts h (absorbNext k h p) := by
  unfold absorbNext
  simp only
  split
  · exact sameCounts_join _ _ _
  · exact ⟨rfl, rfl, rfl, rfl⟩

/-- `absorbNext` on the new item: a vacant tile behind it has become part of its tile, and the bytes of the
tile are still to be counted. -/
theorem absorbNext_spec (hk : k ≤ 30) {x rest : ℕ} (hrest : memheapSize k ≤ rest) (hcompact : Compact ys)
    (hl : Loose k (h.withAvailable x) (xs ++ ⟨rest, none⟩ :: ys) fl [h.startAddr + total xs])
    (hx : x = h.availableSize + (rest - memheapSize k)) :
    ∃ rest' ys' fl', Loose k ((absorbNext k h (h.startAddr + total xs)).withAvailable
        ((absorbNext k h (h.startAddr + total xs)).availableSize + (rest' - memheapSize k)))
      (xs ++ ⟨rest', none⟩ :: ys') fl' [h.startAddr + total xs] ∧ h.availableSize ≤
        (absorbNext k h (h.startAddr + total xs)).availableSize + (rest' - memheapSize k) ∧
      labelAt h.startAddr (xs ++ ⟨rest', none⟩ :: ys') = labelAt h.startAddr (xs ++ ⟨rest, none⟩ :: ys) ∧
      Compact ys' ∧ ∀ c ∈ ys'.head?, c.label.isSome = true := by
  have hblocks : Blocks k h (xs ++ ⟨rest, none⟩ :: ys) := hl.blocks.of_fields rfl rfl rfl rfl rfl rfl rfl
  have hpos := hblocks.pos hk
  have hrest' : 0 < rest := hpos ⟨rest, none⟩ (by simp)
  have hnext : h.next (h.startAddr + total xs) = h.startAddr + total xs + rest := hblocks.next_eq
  have hiff : ¬h.isUsed (h.startAddr + total xs + rest) ↔ ∃ c zs, ys = c :: zs ∧ c.label = none := hblocks.next_vacant
  unfold absorbNext
  simp only [hnext]
  by_cases hused : h.isUsed (h.startAddr + total xs + rest)
  · rw [if_neg (not_not.mpr hused)]
    refine ⟨rest, ys, fl, hx ▸ hl, Nat.le_add_right _ _, rfl, hcompact, fun c hc => ?_⟩
    by_contra hnone
    obtain ⟨zs, rfl⟩ := List.head?_eq_some_iff.mp hc
    exact hiff.mpr ⟨c, zs, rfl, Option.not_isSome_iff_eq_none.mp hnone⟩ hused
  · obtain ⟨c, zs, rfl, hc⟩ := hiff.mp hused
    rw [if_pos hused]
    have hcat : xs ++ ⟨rest, none⟩ :: c :: zs = (xs ++ [⟨rest, none⟩]) ++ c :: zs := List.append_cons _ _ _
    have hplace : h.startAddr + total (xs ++ [(⟨rest, none⟩ : Tile ℕ)]) = h.startAddr + total xs + rest := by
      rw [total_append, total, total, Nat.add_zero, Nat.add_assoc]
    have hsize : memitemSize k h (h.startAddr + total xs + rest) = c.len - memheapSize k := by
      rw [← hplace]
      exact (hcat ▸ hblocks).size_eq hk
    have hclen : memheapSize k ≤ c.len := hblocks.len c (by simp)
    have hxspare : x = spare k (xs ++ ⟨rest, none⟩ :: c :: zs) := hl.available
    have hspare := hxspare
    rw [spare_append, spare_cons_of_none _ rfl, spare_cons_of_none _ hc] at hspare
    simp only at hspare
    have hpool : h.availableSize < 2 ^ 32 := by
      have := hl.available_lt
      have hav : (h.withAvailable x).availableSize = x := rfl
      omega
    have hy : sub 32 h.availableSize (memitemSize k h (h.startAddr + total xs + rest)) =
        h.availableSize - (c.len - memheapSize k) := by
      rw [hsize]
      exact sub_of_le (by omega) hpool
    obtain ⟨fl', hjoin, -⟩ := hl.joinNext hk rfl hc fun hmem => by
      have hself : h.startAddr + total xs + rest = h.startAddr + total xs := List.mem_singleton.mp hmem
      omega
    have hjoined := @spare_join k xs zs ⟨rest, none⟩ c rfl hc hrest hclen
    obtain ⟨-, hzs, -, hhead⟩ := (@compact_append_cons ℕ [] zs c).mp hcompact
    rw [hy]
    generalize hye : h.availableSize - (c.len - memheapSize k) = y
    have hcount : y + (rest + c.len - memheapSize k) = spare k (xs ++ ⟨rest + c.len, none⟩ :: zs) := by
      rw [hjoined, ← hxspare]
      omega
    refine ⟨rest + c.len, zs, fl', hjoin.recount hcount, ?_, ?_, hzs, fun d hd => ?_⟩
    · show h.availableSize ≤ y + (rest + c.len - memheapSize k)
      omega
    · exact labelAt_join hpos hc
    · exact (hhead d hd).resolve_left (by rw [hc]; exact Bool.false_ne_true)

theorem sameCounts_newItem (p q : ℕ) : SameCounts h (newItem h p q) := ⟨rfl, rfl, rfl, rfl⟩

theorem sameCounts_finish (q x : ℕ) : SameCounts h ((insertFree h q).withAvailable x) := ⟨rfl, rfl, rfl, rfl⟩

theorem SameCounts.trans {g i : Memheap} (hg : SameCounts h g) (hi : SameCounts g i) : SameCounts h i := by
  obtain ⟨hstart, hpool, hmax, hpeak⟩ := hg
  obtain ⟨hstart', hpool', hmax', hpeak'⟩ := hi
  exact ⟨hstart'.trans hstart, hpool'.trans hpool, hmax'.trans hmax, hpeak'.trans hpeak⟩

theorem finish_spec (hk : k ≤ 30) {rest : ℕ}
    (hl : Loose k (h.withAvailable (h.availableSize + (rest - memheapSize k))) (xs ++ ⟨rest, none⟩ :: ys) fl
      [h.startAddr + total xs]) :
    add 32 (insertFree h (h.startAddr + total xs)).availableSize
        (memitemSize k (insertFree h (h.startAddr + total xs)) (h.startAddr + total xs)) =
      h.availableSize + (rest - memheapSize k) ∧
    Loose k ((insertFree h (h.startAddr + total xs)).withAvailable (h.availableSize + (rest - memheapSize k)))
      (xs ++ ⟨rest, none⟩ :: ys) ((h.startAddr + total xs) :: fl) [] := by
  have hinsert := Loose.insert hk hl
  have hblocks : Blocks k (insertFree h (h.startAddr + total xs)) (xs ++ ⟨rest, none⟩ :: ys) :=
    hinsert.blocks.of_fields rfl rfl rfl rfl rfl rfl rfl
  have hitem : memitemSize k (insertFree h (h.startAddr + total xs)) (h.startAddr + total xs) = rest - memheapSize k :=
    hblocks.size_eq hk
  have hlt := hl.available_lt
  have havail : (h.withAvailable (h.availableSize + (rest - memheapSize k))).availableSize =
      h.availableSize + (rest - memheapSize k) := rfl
  have hpool : (h.withAvailable (h.availableSize + (rest - memheapSize k))).poolSize = h.poolSize := rfl
  refine ⟨?_, hinsert.recount hl.available⟩
  rw [hitem, insertFree_availableSize, add_of_lt (by omega)]

theorem shrinkItem_spec (hk : k ≤ 30) (hs : Shape k h (xs ++ a :: ys) fl) (hc : Counted h) {n newsize : ℕ}
    (ha : a.label = some n) (hn : max n memheapMinialloc ≤ newsize) (hsize : newsize + memheapSize k + memheapMinialloc < a.len - memheapSize k) :
    Leaves k h (shrinkItem k h (h.startAddr + total xs) newsize).record (labelAt h.startAddr (xs ++ a :: ys)) := by
  have hH := memheapSize_spec hk
  have hb := hs.blocks
  have hbound := hb.bound
  obtain ⟨hlen, hend⟩ := hb.bounds
  have hxs : ∀ c ∈ xs, 0 < c.len := fun c hc => hb.pos hk c (by simp [hc])
  obtain ⟨hcxs, hcys, -, -⟩ := compact_append_cons.mp hs.compact
  have hq : add 32 (add 32 (h.startAddr + total xs) newsize) (memheapSize k) =
      h.startAddr + total xs + (newsize + memheapSize k) := by
    rw [add_add_of_lt (by omega), Nat.add_assoc]
  have hsplit := split_spec hk hs (by rw [ha]; rfl) (show memheapSize k ≤ newsize + memheapSize k by omega)
    (show _ ≤ a.len by omega) fun i hi => by
      rw [ha] at hi
      cases hi
      omega
  have hlabels := @labelAt_split xs ys a h.startAddr (newsize + memheapSize k) hxs (by omega) a.label
  have hself : Function.update (labelAt h.startAddr (xs ++ a :: ys)) (h.startAddr + total xs) a.label =
      labelAt h.startAddr (xs ++ a :: ys) := by
    rw [← labelAt_middle hxs a ys h.startAddr]
    exact Function.update_eq_self _ _
  rw [hself] at hlabels
  have hrest : memheapSize k ≤ a.len - (newsize + memheapSize k) := by omega
  unfold shrinkItem
  rw [hq]
  generalize newsize + memheapSize k = len at hsplit hlabels hrest ⊢
  have hcat : xs ++ ⟨len, a.label⟩ :: ⟨a.len - len, none⟩ :: ys = (xs ++ [⟨len, a.label⟩]) ++ ⟨a.len - len, none⟩ :: ys :=
    List.append_cons _ _ _
  have hplace : h.startAddr + total xs + len = h.startAddr + total (xs ++ [(⟨len, a.label⟩ : Tile ℕ)]) := by
    rw [total_append, total, total, Nat.add_zero, Nat.add_assoc]
  rw [hcat, hplace] at hsplit
  rw [hcat] at hlabels
  simp only [hplace]
  have hused : ∀ c ∈ (xs ++ [(⟨len, a.label⟩ : Tile ℕ)]).getLast?, c.label.isSome = true := by
    intro c hc
    rw [List.getLast?_concat, Option.mem_some_iff] at hc
    rw [← hc, ha]
    rfl
  have hcompact : Compact (xs ++ [(⟨len, a.label⟩ : Tile ℕ)]) :=
    compact_append_cons.mpr ⟨hcxs, List.isChain_nil, fun c _ => Or.inr (by rw [ha]; rfl), fun c hc => (by cases hc)⟩
  generalize xs ++ [(⟨len, a.label⟩ : Tile ℕ)] = zs at hsplit hlabels hused hcompact ⊢
  have hsame := @sameCounts_newItem h (h.startAddr + total xs) (h.startAddr + total zs)
  have havail : (newItem h (h.startAddr + total xs) (h.startAddr + total zs)).availableSize = h.availableSize := rfl
  generalize newItem h (h.startAddr + total xs) (h.startAddr + total zs) = g at hsplit hsame havail ⊢
  rw [← hsame.1] at hsplit hlabels ⊢
  obtain ⟨rest, ys', fl', hl, hle, hlabels', hcys', hhead⟩ := absorbNext_spec hk hrest hcys hsplit (by rw [havail])
  have hsame' := hsame.trans (@sameCounts_absorb k g (g.startAddr + total zs))
  have hstart : (absorbNext k g (g.startAddr + total zs)).startAddr = g.startAddr := (sameCounts_absorb _).1
  rw [← hlabels, ← hlabels']
  generalize absorbNext k g (g.startAddr + total zs) = g' at hl hle hsame' hstart ⊢
  rw [← hstart] at hl ⊢
  obtain ⟨hcount, hfinal⟩ := finish_spec hk hl
  rw [hcount, hstart]
  rw [hstart] at hfinal
  have hall := hsame'.trans (@sameCounts_finish g' (g.startAddr + total zs) (g'.availableSize + (rest - memheapSize k)))
  have hcompact' : Compact (zs ++ ⟨rest, none⟩ :: ys') :=
    compact_append_cons.mpr ⟨hcompact, hcys', fun c hc => Or.inl (hused c hc), fun c hc => Or.inr (hhead c hc)⟩
  exact hsame.1 ▸ hfinal.leaves hcompact' ⟨hall, havail ▸ hle⟩ hc

theorem compact_grow {m len rest : ℕ} (h : Compact (xs ++ a :: b :: ys)) (hb : b.label = none) :
    Compact (xs ++ ⟨len, some m⟩ :: ⟨rest, none⟩ :: ys) := by
  obtain ⟨hxs, hys, -, -⟩ := compact_append_cons.mp h
  obtain ⟨-, hys, -, hhead⟩ := (@compact_append_cons ℕ [] ys b).mp hys
  refine compact_append_cons.mpr ⟨hxs, ?_, fun c _ => Or.inr rfl, fun c _ => Or.inl rfl⟩
  refine (@compact_append_cons ℕ [] ys ⟨rest, none⟩).mpr ⟨List.isChain_nil, hys, fun c hc => (by cases hc), fun c hc => ?_⟩
  exact Or.inr ((hhead c hc).resolve_left (by rw [hb]; exact Bool.false_ne_true))

def Memheap.withMaxUsed (h : Memheap) (x : ℕ) : Memheap := { h with maxUsedSize := x }

theorem charge_eq (h : Memheap) (x : ℕ) : h.charge x = (h.withMaxUsed (h.maxUsedWith x)).withAvailable x := by
  unfold Memheap.charge
  generalize h.maxUsedWith x = used
  unfold Memheap.withMaxUsed Memheap.withAvailable
  simp only

theorem Shape.withMaxUsed {bs : List (Tile ℕ)} (hs : Shape k h bs fl) (x : ℕ) : Shape k (h.withMaxUsed x) bs fl :=
  ⟨hs.blocks.of_fields rfl rfl rfl rfl rfl rfl rfl, hs.free, hs.perm, hs.outside, hs.compact, hs.available, hs.roomy⟩

theorem mergeItem_removeFree (p n : ℕ) : mergeItem (removeFree h n) p n = removeFree (mergeItem h p n) n := rfl

/-- The block `a` takes the vacant tile behind it and leaves the end of that tile, which is not in the free list yet. -/
theorem grow_spec (hk : k ≤ 30) (hs : Shape k h (xs ++ a :: b :: ys) fl) {m len x : ℕ} (ha : a.label = some m)
    (hb : b.label = none) (hlen : a.len ≤ len) (hrest : len + memheapSize k ≤ a.len + b.len)
    (hx : x + (len - a.len) = h.availableSize) :
    ∃ fl', Loose k (newItem (removeFree (mergeItem (h.withAvailable x) (h.startAddr + total xs)
        (h.startAddr + total xs + a.len)) (h.startAddr + total xs + a.len)) (h.startAddr + total xs)
          (h.startAddr + total xs + len)) (xs ++ ⟨len, some m⟩ :: ⟨a.len + b.len - len, none⟩ :: ys) fl'
      [h.startAddr + total xs + len] := by
  have hblocks := hs.blocks
  have halen : memheapSize k ≤ a.len := hblocks.len a (by simp)
  have hblen : memheapSize k ≤ b.len := hblocks.len b (by simp)
  have havail := hs.available
  rw [spare_append, spare_cons_of_some _ (by rw [ha]; rfl), spare_cons_of_none _ hb] at havail
  obtain ⟨fl', hjoin, hring, hperm⟩ := @join_spec k h xs ys a b fl hk [] hblocks hb hs.free hs.outside hs.perm
    List.not_mem_nil x
  rw [ha] at hjoin hperm
  generalize hJ : removeFree (mergeItem (h.withAvailable x) (h.startAddr + total xs) (h.startAddr + total xs + a.len))
    (h.startAddr + total xs + a.len) = g at hjoin hring ⊢
  have hstart : g.startAddr = h.startAddr := by
    rw [← hJ]
    rfl
  have hgavail : g.availableSize = x := by
    rw [← hJ]
    rfl
  have houtside : g.freeList < g.startAddr ∨ g.startAddr + g.poolSize ≤ g.freeList := by
    rw [← hJ]
    exact hs.outside
  have hspare : spare k xs + spare k ys = spare k (xs ++ ⟨a.len + b.len, some m⟩ :: ys) := by
    rw [spare_append, spare_cons_of_some _ rfl]
  rw [← hstart] at hperm ⊢
  -- the heap between the two changes, with the bytes it would have available
  have hmid : Shape k (g.withAvailable (spare k xs + spare k ys)) (xs ++ ⟨a.len + b.len, some m⟩ :: ys) fl' := by
    refine ⟨hjoin.of_fields rfl rfl rfl rfl rfl rfl rfl, hring, hperm, houtside, ?_, hspare, ha ▸ roomy_join hs.roomy⟩
    obtain ⟨hcxs, hcys, -, -⟩ := compact_append_cons.mp hs.compact
    obtain ⟨-, hcys, -, -⟩ := (@compact_append_cons ℕ [] ys b).mp hcys
    exact compact_append_cons.mpr ⟨hcxs, hcys, fun c _ => Or.inr rfl, fun c _ => Or.inl rfl⟩
  have hsplit := split_spec hk hmid rfl (show memheapSize k ≤ len by omega) hrest fun i hi => by
    cases hi
    have := hs.roomy a (by simp) m ha
    omega
  refine ⟨fl', ?_⟩
  have hcount := hsplit.recount (show x = _ by
    rw [← hsplit.available]
    show x = spare k xs + spare k ys + (a.len + b.len - len - memheapSize k)
    omega)
  rw [← hgavail] at hcount
  exact hcount

theorem grow_fields (u x p n q : ℕ) :
    let g := insertFree (newItem (removeFree (mergeItem ((h.withMaxUsed u).withAvailable x) p n) n) p q) q
    g.startAddr = h.startAddr ∧ g.maxUsedSize = u ∧ g.availableSize = x ∧ g.poolSize = h.poolSize ∧ g.peak = h.peak := by
  simp only [insertFree, newItem, removeFree, mergeItem, Memheap.withMaxUsed, Memheap.withAvailable, and_self]

theorem growItem_spec (hk : k ≤ 30) (hs : Shape k h (xs ++ a :: b :: ys) fl) (hc : Counted h) {m n newsize : ℕ}
    (ha : a.label = some m) (hb : b.label = none) (hn : max n memheapMinialloc ≤ newsize) (hlt : a.len - memheapSize k < newsize)
    (hroom : newsize + memheapMinialloc < b.len - memheapSize k + (a.len - memheapSize k)) :
    Leaves k h (growItem k h (h.startAddr + total xs) (a.len - memheapSize k) newsize).record
      (Function.update (labelAt h.startAddr (xs ++ a :: b :: ys)) (h.startAddr + total xs) (some n)) := by
  have hH := memheapSize_spec hk
  have hblocks := hs.blocks
  have hbound := hblocks.bound
  obtain ⟨hlen, hend⟩ := hblocks.bounds
  rw [total] at hend
  have hblen : memheapSize k ≤ b.len := hblocks.len b (by simp)
  have hxs : ∀ c ∈ xs, 0 < c.len := fun c hc => hblocks.pos hk c (by simp [hc])
  have havail := hs.available
  rw [spare_append, spare_cons_of_some _ (by rw [ha]; rfl), spare_cons_of_none _ hb] at havail
  have hle := hs.available_le
  have hx : sub 32 h.availableSize (sub 32 newsize (a.len - memheapSize k)) =
      h.availableSize - (newsize - (a.len - memheapSize k)) := by
    rw [@sub_of_le 32 newsize _ (by omega) (by omega), sub_of_le (by omega) (by omega)]
  have hq : add 32 (add 32 (h.startAddr + total xs) (memheapSize k)) newsize =
      h.startAddr + total xs + (memheapSize k + newsize) := by
    rw [add_add_of_lt (by omega), Nat.add_assoc]
  unfold growItem
  simp only [hx, hq]
  generalize hxe : h.availableSize - (newsize - (a.len - memheapSize k)) = x
  have hnext : (h.charge x).next (h.startAddr + total xs) = h.startAddr + total xs + a.len := hblocks.next_eq
  have hprev : (h.charge x).prev (h.startAddr + total xs + a.len) = h.startAddr + total xs := hblocks.prev_eq
  rw [hnext, hprev, mergeItem_removeFree, charge_eq]
  obtain ⟨used, hmax⟩ : ∃ used, used = h.maxUsedWith x := ⟨_, rfl⟩
  rw [← hmax]
  have hstart : (h.withMaxUsed used).startAddr = h.startAddr := rfl
  obtain ⟨fl', hl⟩ := @grow_spec k _ xs ys a b fl hk (hs.withMaxUsed used) m (memheapSize k + newsize) x ha hb (by omega)
    (by omega) (by
      show x + (memheapSize k + newsize - a.len) = h.availableSize
      omega)
  rw [hstart] at hl
  have hinsert := Loose.insert hk hl
  have hfields := @grow_fields h used x (h.startAddr + total xs) (h.startAddr + total xs + a.len)
    (h.startAddr + total xs + (memheapSize k + newsize))
  generalize insertFree (newItem (removeFree (mergeItem ((h.withMaxUsed used).withAvailable x) (h.startAddr + total xs)
    (h.startAddr + total xs + a.len)) (h.startAddr + total xs + a.len)) (h.startAddr + total xs)
      (h.startAddr + total xs + (memheapSize k + newsize))) (h.startAddr + total xs + (memheapSize k + newsize)) = g
        at hinsert hfields ⊢
  obtain ⟨hstart', hused, havail', hpool, hpeak⟩ := hfields
  have hshape := (hinsert.shape (compact_grow hs.compact hb)).relabel hk (show memheapSize k + max n memheapMinialloc ≤ memheapSize k + newsize by omega)
  have hlabels : labelAt h.startAddr (xs ++ ⟨memheapSize k + newsize, some n⟩ ::
      ⟨a.len + b.len - (memheapSize k + newsize), none⟩ :: ys) =
      Function.update (labelAt h.startAddr (xs ++ a :: b :: ys)) (h.startAddr + total xs) (some n) := by
    rw [← labelAt_join (hblocks.pos hk) hb]
    exact @labelAt_split xs ys ⟨a.len + b.len, a.label⟩ h.startAddr (memheapSize k + newsize) hxs (by
      show memheapSize k + newsize < a.len + b.len
      omega) (some n)
  exact ⟨hstart', _, _, hshape.record, counted_charge hc (hused.trans hmax) havail' hpool hpeak, hlabels⟩

theorem requestSize_add_lt (hk : k ≤ 30) (size : ℕ) : requestSize k size + (2 ^ k - 1) < 2 ^ 32 := by
  have hpow : 2 ^ k ≤ 2 ^ 30 := Nat.pow_le_pow_right (by omega) hk
  have hpos := Nat.two_pow_pos k
  have hroom := @alignUp_add_le k (by omega) size
  rw [requestSize, memheapMinialloc]
  split <;> omega

theorem requestSize_spec (hk : k ≤ 30) {size : ℕ} (hsize : size + (2 ^ k - 1) < 2 ^ 32) :
    size ≤ requestSize k size ∧ requestSize k size + (2 ^ k - 1) < 2 ^ 32 :=
  ⟨le_requestSize hsize, requestSize_add_lt hk size⟩

/-- The block at `ptr` is made larger in place (`memheap.c:318-349`). -/
def GrowsInPlace (k : ℕ) (h : Memheap) (ptr size : ℕ) : Prop :=
  let p := sub 32 ptr (memheapSize k)
  memitemSize k h p < requestSize k size ∧ ¬h.isUsed (h.next p) ∧
    add 32 (requestSize k size) memheapMinialloc < add 32 (memitemSize k h (h.next p)) (memitemSize k h p)

instance (h : Memheap) (ptr size : ℕ) : Decidable (GrowsInPlace k h ptr size) := inferInstanceAs (Decidable (_ ∧ _))

/-- The block at `ptr` is to move, and there is no other for it. -/
def ReallocFails (k : ℕ) (h : Memheap) (ptr size : ℕ) : Prop :=
  memitemSize k h (sub 32 ptr (memheapSize k)) < requestSize k size ∧ ¬GrowsInPlace k h ptr size ∧
    ¬AllocFits k h (requestSize k (requestSize k size))

instance (h : Memheap) (ptr size : ℕ) : Decidable (ReallocFails k h ptr size) := inferInstanceAs (Decidable (_ ∧ _))

/-- What a change of the size of the block at `p` leads to: the request fails, or the block stays where it is, or
it moves. -/
def Resized (k : ℕ) (h h' : Memheap) (labels : ℕ → Option ℕ) (p size r : ℕ) : Prop :=
  r = 0 ∧ Leaves k h h' labels ∨
  r = p + memheapSize k ∧ Leaves k h h' (Function.update labels p (some size)) ∨
  ∃ q, r = q + memheapSize k ∧ labels q = none ∧ Leaves k h h' (Function.update (Function.update labels q (some size)) p none)

theorem Leaves.trans {h' h'' : Memheap} {labels labels' : ℕ → Option ℕ} (hl : Leaves k h h' labels)
    (hl' : Leaves k h' h'' labels') : Leaves k h h'' labels' := by
  obtain ⟨hstart, -⟩ := hl
  obtain ⟨hstart', bs, fl, hs, hc, hlabels⟩ := hl'
  exact ⟨hstart'.trans hstart, bs, fl, hs, hc, hstart ▸ hlabels⟩

theorem move_spec (hk : k ≤ 30) (hs : Shape k h (xs ++ b :: ys) fl) (hc : Counted h) {m n req : ℕ} (hb : b.label = some m)
    (hle : n ≤ requestSize k req) :
    ∃ r h', ((rtMemheapAlloc k h req).bind fun x => if x.1 ≠ 0 then
        (rtMemheapFree k x.2 (h.startAddr + total xs + memheapSize k)).map fun h => (x.1, h) else some x) = some (r, h') ∧
      Resized k h h' (labelAt h.startAddr (xs ++ b :: ys)) (h.startAddr + total xs) n r ∧
      (r = 0 ↔ ¬AllocFits k h (requestSize k req)) ∧ (r = 0 → h' = h.record) := by
  have hH := memheapSize_spec hk
  have hxs : ∀ c ∈ xs, 0 < c.len := fun c hc => hs.blocks.pos hk c (by simp [hc])
  obtain ⟨r, h₁, halloc, ⟨rfl, rfl, hnot⟩ | ⟨q, rfl, hfits, hq, hleaves⟩⟩ := rtMemheapAlloc_spec hk hs hc hle
  · exact ⟨0, h.record, by rw [halloc]; rfl, Or.inl ⟨rfl, Leaves.record hs hc⟩, iff_of_true rfl hnot, fun _ => rfl⟩
  · obtain ⟨hstart, bs₁, fl₁, hs₁, hc₁, hlabels⟩ := hleaves
    have hold := labelAt_middle hxs b ys h.startAddr
    have hne : h.startAddr + total xs ≠ q := by
      rintro rfl
      rw [hold, hb] at hq
      cases hq
    have hp : labelAt h.startAddr bs₁ (h.startAddr + total xs) = some m := by
      rw [hlabels, Function.update_of_ne hne, hold, hb]
    obtain ⟨xs₁, b₁, ys₁, rfl, hplace, hb₁⟩ := labelAt_eq_some hp
    obtain ⟨h₂, hfree, hleaves₂⟩ := rtMemheapFree_spec hk hs₁ hc₁ (by rw [hb₁]; rfl)
    rw [hstart, hlabels, ← hplace] at hleaves₂
    rw [hstart, ← hplace] at hfree
    refine ⟨q + memheapSize k, h₂, ?_, Or.inr (Or.inr ⟨q, rfl, hq, ?_⟩), iff_of_false (by omega) (not_not.mpr hfits),
      fun hnull => absurd hnull (by omega)⟩
    · rw [halloc, Option.bind_some, if_pos (show q + memheapSize k ≠ 0 by omega), hfree]
      rfl
    · exact Leaves.trans ⟨hstart, _, _, hs₁, hc₁, hlabels⟩ hleaves₂

theorem resize_spec (hk : k ≤ 30) (hs : Shape k h (xs ++ b :: ys) fl) (hc : Counted h) {m n size : ℕ} (hb : b.label = some m)
    (hle : n ≤ requestSize k size) (hpos : size ≠ 0) (hfits : GrowsInPlace k h (h.startAddr + total xs + memheapSize k) size →
      requestSize k size + memheapMinialloc < 2 ^ 32) :
    ∃ r h', rtMemheapRealloc k h (h.startAddr + total xs + memheapSize k) size = some (r, h') ∧
      Resized k h h' (labelAt h.startAddr (xs ++ b :: ys)) (h.startAddr + total xs) n r ∧
      (r = 0 ↔ ReallocFails k h (h.startAddr + total xs + memheapSize k) size) ∧ (r = 0 → h' = h.record) := by
  have hH := memheapSize_spec hk
  have hmini : memheapMinialloc = 12 := rfl
  have hblocks := hs.blocks
  obtain ⟨hlen, hend⟩ := hblocks.bounds
  have hbound := hblocks.bound
  have hxs : ∀ c ∈ xs, 0 < c.len := fun c hc => hblocks.pos hk c (by simp [hc])
  have hreq := requestSize_add_lt hk size
  have hp : sub 32 (h.startAddr + total xs + memheapSize k) (memheapSize k) = h.startAddr + total xs := by
    rw [sub_of_le (Nat.le_add_left _ _) (by omega), Nat.add_sub_cancel]
  rw [rtMemheapRealloc, if_neg hpos, if_neg (by omega)]
  simp only [ReallocFails, GrowsInPlace, hp, hblocks.size_eq hk, hblocks.next_eq] at hfits ⊢
  have hmax : max n memheapMinialloc ≤ requestSize k size := max_le hle (minialloc_le size)
  generalize requestSize k size = req at hfits hle hreq hmax ⊢
  by_cases hgrow : b.len - memheapSize k < req
  · rw [if_pos hgrow, if_pos (by omega)]
    by_cases hroom : ¬h.isUsed (h.startAddr + total xs + b.len) ∧ add 32 req memheapMinialloc <
        add 32 (memitemSize k h (h.startAddr + total xs + b.len)) (b.len - memheapSize k)
    · rw [if_pos hroom]
      obtain ⟨c, zs, rfl, hvacant⟩ := hblocks.next_vacant.mp hroom.1
      rw [total] at hend
      have hclen : memheapSize k ≤ c.len := hblocks.len c (by simp)
      have hnext : Blocks k h ((xs ++ [b]) ++ c :: zs) := List.append_cons xs b (c :: zs) ▸ hblocks
      have hplace : h.startAddr + total (xs ++ [b]) = h.startAddr + total xs + b.len := by
        rw [total_append, total, total, Nat.add_zero, Nat.add_assoc]
      have hcsize := hnext.size_eq hk
      rw [hplace] at hcsize
      have hlt := hroom.2
      rw [hcsize, add_of_lt (hfits ⟨hgrow, hroom⟩), add_of_lt (by omega)] at hlt
      exact ⟨_, _, rfl, Or.inr (Or.inl ⟨rfl, growItem_spec hk hs hc hb hvacant hmax hgrow hlt⟩),
        iff_of_false (by omega) fun hfails => hfails.2.1 ⟨hgrow, hroom⟩, fun hnull => absurd hnull (by omega)⟩
    · rw [if_neg hroom]
      obtain ⟨r, h', hmove, hres, hnull, hsame⟩ := move_spec hk hs hc hb (hle.trans (le_requestSize hreq))
      refine ⟨r, h', hmove, hres, hnull.trans ?_, hsame⟩
      exact ⟨fun hnot => ⟨hgrow, fun hg => hroom hg.2, hnot⟩, fun hfails => hfails.2.2⟩
  · rw [if_neg hgrow]
    have hsum : add 32 (add 32 req (memheapSize k)) memheapMinialloc = req + memheapSize k + memheapMinialloc :=
      add_add_of_lt (by omega)
    rw [hsum]
    have hrelabel : Shape k h (xs ++ ⟨b.len, some n⟩ :: ys) fl := by
      have hs' : Shape k h (xs ++ ⟨b.len, some m⟩ :: ys) fl := by
        rw [← hb]
        exact hs
      exact hs'.relabel hk (by omega)
    have hlabels := @labelAt_setMark xs ys b h.startAddr hxs (some n)
    by_cases hkeep : b.len - memheapSize k ≤ req + memheapSize k + memheapMinialloc
    · rw [if_pos hkeep]
      exact ⟨_, _, rfl, Or.inr (Or.inl ⟨rfl, rfl, _, _, hrelabel.record, hc.record, hlabels⟩),
        iff_of_false (by omega) fun hfails => hgrow hfails.1, fun hnull => absurd hnull (by omega)⟩
    · rw [if_neg hkeep]
      have hshrink := shrinkItem_spec hk hrelabel hc rfl hmax (not_le.mp hkeep)
      rw [hlabels] at hshrink
      exact ⟨_, _, rfl, Or.inr (Or.inl ⟨rfl, hshrink⟩), iff_of_false (by omega) fun hfails => hgrow hfails.1,
        fun hnull => absurd hnull (by omega)⟩

end RtThread.Memory.MemHeap
