import RtThread.Memory.MemHeapBlocks

/-!
# What the calls of a memory heap do

`Shape` ties the two rings and `available_size` to a tiling of the pool. Each call turns one such
tiling into another, in which the label of at most two tiles has changed.
-/

namespace RtThread.Memory.MemHeap

open RtThread.Lib.Rings RtThread.Lib.Tiling RtThread.Lib.Word

variable {k : ℕ}

/-- The data sizes of the vacant tiles. -/
def spare (k : ℕ) (bs : List (Tile ℕ)) : ℕ :=
  (bs.map fun b => if b.label.isSome = true then 0 else b.len - memheapSize k).sum

@[simp] theorem spare_append (bs cs : List (Tile ℕ)) : spare k (bs ++ cs) = spare k bs + spare k cs := by
  simp [spare]

theorem spare_cons (b : Tile ℕ) (bs : List (Tile ℕ)) :
    spare k (b :: bs) = (if b.label.isSome = true then 0 else b.len - memheapSize k) + spare k bs := by
  simp [spare]

theorem spare_cons_of_none {b : Tile ℕ} (bs : List (Tile ℕ)) (h : b.label = none) :
    spare k (b :: bs) = b.len - memheapSize k + spare k bs := by
  rw [spare_cons, h]
  rfl

theorem spare_cons_of_some {b : Tile ℕ} (bs : List (Tile ℕ)) (h : b.label.isSome = true) :
    spare k (b :: bs) = spare k bs := by
  rw [spare_cons, if_pos h, Nat.zero_add]

theorem spare_le (bs : List (Tile ℕ)) : spare k bs ≤ total bs := by
  induction bs with
  | nil => exact le_rfl
  | cons b bs ih =>
    rw [spare_cons, total]
    split <;> omega

/-- A block in use has room for what was asked for, and for the smallest size. -/
def Roomy (k : ℕ) (b : Tile ℕ) : Prop := ∀ n, b.label = some n → memheapSize k + max n memheapMinialloc ≤ b.len

structure Shape (k : ℕ) (h : Memheap) (bs : List (Tile ℕ)) (fl : List ℕ) : Prop where
  blocks : Blocks k h bs
  free : FreeRing h fl
  perm : fl.Perm (vacant h.startAddr bs)
  outside : h.freeList < h.startAddr ∨ h.startAddr + h.poolSize ≤ h.freeList
  compact : Compact bs
  available : h.availableSize = spare k bs
  roomy : ∀ b ∈ bs, Roomy k b

/-- `max_used_size` is the largest `pool_size - available_size` so far. -/
def Counted (h : Memheap) : Prop := h.maxUsedSize = h.peak ∧ h.used ≤ h.peak

variable {h : Memheap} {xs ys : List (Tile ℕ)} {a b : Tile ℕ} {fl : List ℕ}

/-! ### Fields that a step leaves alone -/

theorem Blocks.of_fields {h' : Memheap} {bs : List (Tile ℕ)} (hb : Blocks k h bs) (hnext : h'.next = h.next)
    (hprev : h'.prev = h.prev) (hmagic : h'.magic = h.magic) (hpool : h'.poolPtr = h.poolPtr) (hself : h'.self = h.self)
    (hstart : h'.startAddr = h.startAddr) (hsize : h'.poolSize = h.poolSize) : Blocks k h' bs := by
  constructor
  · rw [hnext, hprev, hstart]
    exact hb.ring
  · exact hb.len
  · rw [hmagic, hpool, hself, hstart]
    exact hb.item
  · rw [hmagic, hstart]
    exact hb.tail
  · rw [hsize]
    exact hb.total_eq
  · rw [hstart, hsize]
    exact hb.bound
  · rw [hsize]
    exact hb.room

theorem vacant_range (hk : k ≤ 30) {bs : List (Tile ℕ)} (hb : Blocks k h bs) {q : ℕ} (hq : q ∈ vacant h.startAddr bs) :
    h.startAddr ≤ q ∧ q < h.startAddr + h.poolSize := by
  obtain ⟨xs, b, ys, rfl, rfl, -⟩ := mem_vacant hq
  have hsize := memheapSize_spec hk
  have hbounds := hb.bounds
  omega

theorem free_nodup (hk : k ≤ 30) {bs : List (Tile ℕ)} (hb : Blocks k h bs)
    (houtside : h.freeList < h.startAddr ∨ h.startAddr + h.poolSize ≤ h.freeList) {pending : List ℕ}
    (hperm : (pending ++ fl).Perm (vacant h.startAddr bs)) : (h.freeList :: (pending ++ fl)).Nodup := by
  refine List.nodup_cons.mpr ⟨fun hmem => ?_, hperm.nodup_iff.mpr (vacant_nodup (hb.pos hk) _)⟩
  have := vacant_range hk hb (hperm.mem_iff.mp hmem)
  omega

theorem Shape.nodup (hk : k ≤ 30) {bs : List (Tile ℕ)} (hs : Shape k h bs fl) : (h.freeList :: fl).Nodup :=
  @free_nodup k h fl hk bs hs.blocks hs.outside [] hs.perm

theorem Shape.available_le {bs : List (Tile ℕ)} (hs : Shape k h bs fl) :
    h.availableSize + memheapSize k ≤ h.poolSize := by
  rw [hs.available, ← hs.blocks.total_eq]
  exact Nat.add_le_add_right (spare_le bs) _

theorem used_eq (hle : h.availableSize ≤ h.poolSize) (hlt : h.poolSize < 2 ^ 32) :
    h.used = h.poolSize - h.availableSize := sub_of_le hle hlt

theorem remove_spec {pending l : List ℕ} {q : ℕ} (hf : FreeRing h fl) (hnodup : (h.freeList :: (pending ++ fl)).Nodup)
    (hpending : q ∉ pending) (hperm : (pending ++ fl).Perm (q :: l)) :
    ∃ fl', FreeRing (removeFree h q) fl' ∧ (pending ++ fl').Perm l ∧ (h.freeList :: fl').Nodup ∧
      q ∉ h.freeList :: fl' := by
  have hmem : q ∈ pending ++ fl := hperm.mem_iff.mpr List.mem_cons_self
  obtain ⟨us, vs, rfl⟩ := List.append_of_mem ((List.mem_append.mp hmem).resolve_left hpending)
  have hsub : List.Sublist (h.freeList :: (us ++ q :: vs)) (h.freeList :: (pending ++ (us ++ q :: vs))) :=
    (List.sublist_append_right pending _).cons_cons _
  have hnodup' := hnodup.sublist hsub
  have hcons : (q :: (h.freeList :: (us ++ vs))).Nodup := by
    rw [← List.cons_append]
    refine List.nodup_middle.mp ?_
    rwa [List.cons_append]
  refine ⟨us ++ vs, hf.removeFree hnodup', ?_, (List.nodup_cons.mp hcons).2, (List.nodup_cons.mp hcons).1⟩
  have hmiddle : (q :: (pending ++ (us ++ vs))).Perm (pending ++ (us ++ q :: vs)) := by
    rw [← List.append_assoc, ← List.append_assoc]
    exact List.perm_middle.symm
  exact (hmiddle.trans hperm).cons_inv

@[simp] theorem removeFree_startAddr (p : ℕ) : (removeFree h p).startAddr = h.startAddr := rfl

@[simp] theorem insertFree_startAddr (p : ℕ) : (insertFree h p).startAddr = h.startAddr := rfl

@[simp] theorem clearFree_startAddr (p : ℕ) : (clearFree h p).startAddr = h.startAddr := rfl

@[simp] theorem newItem_startAddr (p q : ℕ) : (newItem h p q).startAddr = h.startAddr := rfl

@[simp] theorem useItem_startAddr (p : ℕ) : (useItem h p).startAddr = h.startAddr := rfl

@[simp] theorem charge_startAddr (x : ℕ) : (h.charge x).startAddr = h.startAddr := rfl

@[simp] theorem record_startAddr : h.record.startAddr = h.startAddr := rfl

@[simp] theorem removeFree_availableSize (p : ℕ) : (removeFree h p).availableSize = h.availableSize := rfl

@[simp] theorem insertFree_availableSize (p : ℕ) : (insertFree h p).availableSize = h.availableSize := rfl

@[simp] theorem clearFree_availableSize (p : ℕ) : (clearFree h p).availableSize = h.availableSize := rfl

@[simp] theorem newItem_availableSize (p q : ℕ) : (newItem h p q).availableSize = h.availableSize := rfl

/-! ### Joining a vacant tile to the one before it -/

theorem vacant_join (p : ℕ) (hvacant : b.label = none) : (vacant p (xs ++ a :: b :: ys)).Perm ((p + total xs + a.len) ::
    vacant p (xs ++ ⟨a.len + b.len, a.label⟩ :: ys)) := by
  rw [vacant_append, vacant_append]
  cases ha : a.label with
  | none =>
    rw [vacant_cons_of_none _ ha, vacant_cons_of_none _ hvacant, vacant_cons_of_none _ rfl, Nat.add_assoc (p + total xs)]
    refine List.perm_iff_count.mpr fun x => ?_
    simp only [List.count_append, List.count_cons]
    omega
  | some n =>
    rw [vacant_cons_of_some _ (by rw [ha]; rfl), vacant_cons_of_none _ hvacant, vacant_cons_of_some _ rfl,
      Nat.add_assoc (p + total xs)]
    exact List.perm_middle

theorem join_spec (hk : k ≤ 30) {pending : List ℕ} (hb : Blocks k h (xs ++ a :: b :: ys)) (hvacant : b.label = none)
    (hf : FreeRing h fl) (houtside : h.freeList < h.startAddr ∨ h.startAddr + h.poolSize ≤ h.freeList)
    (hperm : (pending ++ fl).Perm (vacant h.startAddr (xs ++ a :: b :: ys)))
    (hpending : h.startAddr + total xs + a.len ∉ pending) (x : ℕ) :
    ∃ fl', Blocks k (removeFree (mergeItem (h.withAvailable x) (h.startAddr + total xs)
        (h.startAddr + total xs + a.len)) (h.startAddr + total xs + a.len)) (xs ++ ⟨a.len + b.len, a.label⟩ :: ys) ∧
      FreeRing (removeFree (mergeItem (h.withAvailable x) (h.startAddr + total xs)
        (h.startAddr + total xs + a.len)) (h.startAddr + total xs + a.len)) fl' ∧
      (pending ++ fl').Perm (vacant h.startAddr (xs ++ ⟨a.len + b.len, a.label⟩ :: ys)) := by
  have hnodup := free_nodup hk hb houtside hperm
  obtain ⟨fl', hring, hperm', -⟩ := remove_spec hf hnodup hpending (hperm.trans (vacant_join h.startAddr hvacant))
  exact ⟨fl', (hb.mergeItem hk).of_fields rfl rfl rfl rfl rfl rfl rfl, hring, hperm'⟩

theorem labelAt_join {p : ℕ} (hpos : ∀ c ∈ xs ++ a :: b :: ys, 0 < c.len) (hvacant : b.label = none) :
    labelAt p (xs ++ ⟨a.len + b.len, a.label⟩ :: ys) = labelAt p (xs ++ a :: b :: ys) := by
  funext q
  have hxs : ∀ c ∈ xs, 0 < c.len := fun c hc => hpos c (by simp [hc])
  by_cases hq : q < p + total xs
  · rw [labelAt_append_of_lt _ hq, labelAt_append_of_lt _ hq]
  · rw [labelAt_append_of_le hxs _ (not_lt.mp hq), labelAt_append_of_le hxs _ (not_lt.mp hq)]
    simp only [labelAt, hvacant, ← Nat.add_assoc]
    split
    · rfl
    · split
      · rename_i hqa
        have hb := hpos b (by simp)
        exact labelAt_of_lt ys (by omega)
      · rfl

theorem compact_of_some {n : ℕ} {len : ℕ} (h : Compact (xs ++ b :: ys)) : Compact (xs ++ ⟨len, some n⟩ :: ys) := by
  obtain ⟨hxs, hys, -, -⟩ := compact_append_cons.mp h
  exact compact_append_cons.mpr ⟨hxs, hys, fun c _ => Or.inr rfl, fun c _ => Or.inl rfl⟩

/-! ### Taking an item -/

theorem counted_charge {h' : Memheap} (hc : Counted h) {x : ℕ} (hmax : h'.maxUsedSize = (h.charge x).maxUsedSize)
    (havail : h'.availableSize = x) (hpool : h'.poolSize = h.poolSize) (hpeak : h'.peak = h.peak) :
    Counted h'.record := by
  have hused : h'.used = sub 32 h.poolSize x := by
    rw [Memheap.used, havail, hpool]
  have hcount : h'.maxUsedSize = max h.peak h'.used := by
    rw [hmax, Memheap.charge, hused]
    simp only [Memheap.maxUsedWith, hc.1]
    split <;> omega
  refine ⟨?_, le_max_right _ _⟩
  rw [Memheap.record, hpeak]
  exact hcount

theorem Shape.record {bs : List (Tile ℕ)} (hs : Shape k h bs fl) : Shape k h.record bs fl :=
  ⟨hs.blocks.of_fields rfl rfl rfl rfl rfl rfl rfl, hs.free, hs.perm, hs.outside, hs.compact, hs.available, hs.roomy⟩

theorem vacant_middle (p : ℕ) (hvacant : b.label = none) : (vacant p (xs ++ b :: ys)).Perm
    ((p + total xs) :: (vacant p xs ++ vacant (p + total xs + b.len) ys)) := by
  rw [vacant_append, vacant_cons_of_none _ hvacant]
  exact List.perm_middle

theorem labelAt_setMark {p : ℕ} (hpos : ∀ c ∈ xs, 0 < c.len) (label : Option ℕ) :
    labelAt p (xs ++ ⟨b.len, label⟩ :: ys) = Function.update (labelAt p (xs ++ b :: ys)) (p + total xs) label := by
  refine labelAt_replace hpos le_rfl fun q hq => ?_
  by_cases he : q = p + total xs
  · rw [he, Function.update_self, labelAt, if_pos rfl]
  · rw [Function.update_of_ne he, labelAt, if_neg he, labelAt, if_neg he]

theorem labelAt_split {p len : ℕ} (hpos : ∀ c ∈ xs, 0 < c.len) (hlen : len < b.len) (label : Option ℕ) :
    labelAt p (xs ++ ⟨len, label⟩ :: ⟨b.len - len, none⟩ :: ys) =
      Function.update (labelAt p (xs ++ b :: ys)) (p + total xs) label := by
  refine labelAt_replace hpos le_rfl fun q hq => ?_
  have hend : p + total xs + len + (b.len - len) = p + total xs + b.len := by omega
  by_cases he : q = p + total xs
  · rw [he, Function.update_self, labelAt, if_pos rfl]
  · rw [Function.update_of_ne he]
    simp only [labelAt, if_neg he, hend]
    split
    · rename_i hq
      exact (labelAt_of_lt ys (by omega)).symm
    · rfl

theorem Blocks.use (hk : k ≤ 30) (hb : Blocks k h (xs ++ b :: ys)) (hvacant : b.label = none) (n : ℕ) :
    Blocks k (useItem h (h.startAddr + total xs)) (xs ++ ⟨b.len, some n⟩ :: ys) := by
  have hmark := hb.setMark hk (some n)
  rwa [mark_some, ← mark_none, ← hvacant, ← hb.item_eq.1] at hmark

theorem use_spec (hk : k ≤ 30) {n : ℕ} (hb : Blocks k h (xs ++ b :: ys)) (hvacant : b.label = none) (hf : FreeRing h fl)
    (houtside : h.freeList < h.startAddr ∨ h.startAddr + h.poolSize ≤ h.freeList)
    (hperm : fl.Perm (vacant h.startAddr xs ++ vacant (h.startAddr + total xs + b.len) ys))
    (hcompact : Compact (xs ++ ⟨b.len, some n⟩ :: ys)) (havail : h.availableSize = spare k xs + spare k ys)
    (hroomy : ∀ c ∈ xs ++ ⟨b.len, some n⟩ :: ys, Roomy k c) :
    Shape k (useItem h (h.startAddr + total xs)) (xs ++ ⟨b.len, some n⟩ :: ys) fl := by
  refine ⟨hb.use hk hvacant n, hf, ?_, houtside, hcompact, ?_, hroomy⟩
  · rw [vacant_append, vacant_cons_of_some _ rfl]
    exact hperm
  · rw [spare_append, spare_cons_of_some _ rfl]
    exact havail

theorem roomy_middle {cs : List (Tile ℕ)} (hroomy : ∀ c ∈ xs ++ b :: ys, Roomy k c) (hcs : ∀ c ∈ cs, Roomy k c) :
    ∀ c ∈ xs ++ (cs ++ ys), Roomy k c := by
  simp only [List.forall_mem_append, List.forall_mem_cons] at hroomy ⊢
  exact ⟨hroomy.1, hcs, hroomy.2.2⟩

theorem takeWhole_spec (hk : k ≤ 30) (hs : Shape k h (xs ++ b :: ys) fl) (hc : Counted h) (hvacant : b.label = none)
    {size n : ℕ} (hfit : size + memheapSize k ≤ b.len) (hn : max n memheapMinialloc ≤ size)
    (hwhole : ¬ add 32 (add 32 size (memheapSize k)) memheapMinialloc ≤ b.len - memheapSize k) :
    ∃ fl', Shape k (takeItem k h (h.startAddr + total xs) (b.len - memheapSize k) size).record
        (xs ++ ⟨b.len, some n⟩ :: ys) fl' ∧
      Counted (takeItem k h (h.startAddr + total xs) (b.len - memheapSize k) size).record := by
  have hb := hs.blocks
  have hbound := hb.bound
  obtain ⟨hlen, hend⟩ := hb.bounds
  have havail := hs.available
  rw [spare_append, spare_cons_of_none _ hvacant] at havail
  have hspare := hs.available_le
  have hleft : sub 32 h.availableSize (b.len - memheapSize k) = spare k xs + spare k ys := by
    rw [sub_of_le (by omega) (by omega)]
    omega
  rw [takeItem, if_neg hwhole, hleft]
  have hcount : Blocks k (h.charge (spare k xs + spare k ys)) (xs ++ b :: ys) :=
    hb.of_fields rfl rfl rfl rfl rfl rfl rfl
  have hfree : FreeRing (h.charge (spare k xs + spare k ys)) fl := hs.free
  have hnodup := hs.nodup hk
  obtain ⟨fl', hring, hperm, -, hnot⟩ := @remove_spec _ fl [] _ _ hfree hnodup List.not_mem_nil
    (hs.perm.trans (vacant_middle h.startAddr hvacant))
  refine ⟨fl', Shape.record (use_spec hk (hcount.of_fields rfl rfl rfl rfl rfl rfl rfl) hvacant (hring.clearFree hnot)
    hs.outside hperm (compact_of_some hs.compact) rfl ?_), counted_charge hc rfl rfl rfl rfl⟩
  refine @roomy_middle k xs ys b [⟨b.len, some n⟩] hs.roomy fun c hcm i hi => ?_
  rw [List.mem_singleton.mp hcm] at hi ⊢
  cases hi
  simp only
  omega

theorem compact_split {n len rest : ℕ} (h : Compact (xs ++ b :: ys)) (hvacant : b.label = none) :
    Compact (xs ++ ⟨len, some n⟩ :: ⟨rest, none⟩ :: ys) := by
  obtain ⟨hxs, hys, -, hnext⟩ := compact_append_cons.mp h
  refine compact_append_cons.mpr ⟨hxs, ?_, fun c _ => Or.inr rfl, fun c _ => Or.inl rfl⟩
  refine (@compact_append_cons ℕ [] _ _).mpr ⟨List.isChain_nil, hys, fun c hc => (by cases hc), fun c hc => ?_⟩
  exact Or.inr ((hnext c hc).resolve_left (by rw [hvacant]; exact Bool.false_ne_true))

theorem takeSplit_spec (hk : k ≤ 30) (hs : Shape k h (xs ++ b :: ys) fl) (hc : Counted h) (hvacant : b.label = none)
    {size n : ℕ} (hfit : size + memheapSize k ≤ b.len) (hn : max n memheapMinialloc ≤ size)
    (hsplit : add 32 (add 32 size (memheapSize k)) memheapMinialloc ≤ b.len - memheapSize k) :
    ∃ fl', Shape k (takeItem k h (h.startAddr + total xs) (b.len - memheapSize k) size).record
        (xs ++ ⟨size + memheapSize k, some n⟩ :: ⟨b.len - (size + memheapSize k), none⟩ :: ys) fl' ∧
      Counted (takeItem k h (h.startAddr + total xs) (b.len - memheapSize k) size).record ∧
      size + memheapSize k < b.len := by
  have hb := hs.blocks
  have hbound := hb.bound
  have hsize := memheapSize_spec hk
  have hmini : memheapMinialloc = 12 := rfl
  obtain ⟨hlen, hend⟩ := hb.bounds
  have havail := hs.available
  rw [spare_append, spare_cons_of_none _ hvacant] at havail
  have hspare := hs.available_le
  have hroom := hsplit
  rw [add_add_of_lt (by omega)] at hroom
  have hq : add 32 (add 32 (h.startAddr + total xs) size) (memheapSize k) =
      h.startAddr + total xs + (size + memheapSize k) := by
    rw [add_add_of_lt (by omega), Nat.add_assoc]
  have hleft : sub 32 (sub 32 h.availableSize size) (memheapSize k) =
      spare k xs + spare k (⟨b.len - (size + memheapSize k), none⟩ :: ys) := by
    rw [spare_cons_of_none _ rfl, @sub_of_le 32 h.availableSize size (by omega) (by omega), sub_of_le (by omega) (by omega)]
    simp only
    omega
  simp only [takeItem, if_pos hsplit, hq, insertFree_availableSize, clearFree_availableSize, removeFree_availableSize,
    newItem_availableSize, hleft]
  generalize hqe : h.startAddr + total xs + (size + memheapSize k) = q
  have hnew := hb.newItem hk (show memheapSize k ≤ size + memheapSize k by omega) (show _ ≤ b.len by omega)
  rw [hvacant, hqe] at hnew
  have hfree : FreeRing (newItem h (h.startAddr + total xs) q) fl := hs.free
  have hnodup := hs.nodup hk
  obtain ⟨fl', hring, hperm, hnodup', hnot⟩ := @remove_spec _ fl [] _ _ hfree hnodup List.not_mem_nil
    (hs.perm.trans (vacant_middle h.startAddr hvacant))
  have hrest : vacant (h.startAddr + total xs + (size + memheapSize k)) (⟨b.len - (size + memheapSize k), none⟩ :: ys) =
      q :: vacant (h.startAddr + total xs + b.len) ys := by
    rw [vacant_cons_of_none _ rfl, hqe, ← hqe, Nat.add_assoc _ _ (b.len - _), Nat.add_sub_cancel' (by omega)]
  have hperm' : (q :: fl').Perm (vacant h.startAddr xs ++
      vacant (h.startAddr + total xs + (size + memheapSize k)) (⟨b.len - (size + memheapSize k), none⟩ :: ys)) := by
    rw [hrest]
    exact (hperm.cons q).trans List.perm_middle.symm
  have hfresh : q ∉ h.freeList :: fl' := by
    have hboth : ([h.startAddr + total xs, q] ++ fl').Perm (vacant h.startAddr
        (xs ++ ⟨size + memheapSize k, none⟩ :: ⟨b.len - (size + memheapSize k), none⟩ :: ys)) := by
      rw [vacant_append, vacant_cons_of_none _ rfl, hrest]
      exact ((hperm.cons q).cons _).trans ((List.perm_middle.symm.cons _).trans List.perm_middle.symm)
    have hall := @free_nodup k _ fl' hk _ hnew hs.outside _ hboth
    simp only [List.cons_append, List.nil_append, List.nodup_cons, List.mem_cons, not_or] at hall ⊢
    exact ⟨fun he => hall.1.2.1 he.symm, hall.2.2.1⟩
  have hinsert := (hring.clearFree hnot).insertFree hnodup' hfresh
  generalize hg : insertFree (clearFree (removeFree (newItem h (h.startAddr + total xs) q)
      (h.startAddr + total xs)) (h.startAddr + total xs)) q = g at hinsert ⊢
  have hgb : Blocks k g (xs ++ ⟨size + memheapSize k, none⟩ :: ⟨b.len - (size + memheapSize k), none⟩ :: ys) := by
    rw [← hg]
    exact hnew.of_fields rfl rfl rfl rfl rfl rfl rfl
  have hgs : g.startAddr = h.startAddr ∧ g.freeList = h.freeList ∧ g.poolSize = h.poolSize := by
    rw [← hg]
    simp only [insertFree, clearFree, removeFree, newItem, and_self]
  have hgm : g.maxUsedSize = h.maxUsedSize ∧ g.peak = h.peak ∧ g.availableSize = h.availableSize := by
    rw [← hg]
    simp only [insertFree, clearFree, removeFree, newItem, and_self]
  have hgc : Counted g := by
    rw [Counted, Memheap.used, hgm.1, hgm.2.1, hgm.2.2, hgs.2.2]
    exact hc
  have houtside := hs.outside
  rw [← hgs.1] at hperm' houtside ⊢
  rw [← hgs.2.1, ← hgs.2.2] at houtside
  generalize hv : spare k xs + spare k (⟨b.len - (size + memheapSize k), none⟩ :: ys) = v
  refine ⟨q :: fl', Shape.record (use_spec (h := g.charge v) hk (hgb.of_fields rfl rfl rfl rfl rfl rfl rfl)
    rfl hinsert houtside hperm' (compact_split hs.compact hvacant) hv.symm ?_), counted_charge hgc rfl rfl rfl rfl,
    by omega⟩
  refine @roomy_middle k xs ys b [⟨size + memheapSize k, some n⟩, ⟨b.len - (size + memheapSize k), none⟩] hs.roomy
    fun c hcm i hi => ?_
  simp only [List.mem_cons, List.not_mem_nil, or_false] at hcm
  rcases hcm with rfl | rfl
  · cases hi
    simp only
    omega
  · cases hi

theorem takeItem_spec (hk : k ≤ 30) (hs : Shape k h (xs ++ b :: ys) fl) (hc : Counted h) (hvacant : b.label = none)
    {size n : ℕ} (hfit : size + memheapSize k ≤ b.len) (hn : max n memheapMinialloc ≤ size) :
    ∃ bs' fl', Shape k (takeItem k h (h.startAddr + total xs) (b.len - memheapSize k) size).record bs' fl' ∧
      Counted (takeItem k h (h.startAddr + total xs) (b.len - memheapSize k) size).record ∧
      labelAt h.startAddr bs' = Function.update (labelAt h.startAddr (xs ++ b :: ys)) (h.startAddr + total xs) (some n) := by
  have hxs : ∀ c ∈ xs, 0 < c.len := fun c hc => hs.blocks.pos hk c (by simp [hc])
  by_cases hsplit : add 32 (add 32 size (memheapSize k)) memheapMinialloc ≤ b.len - memheapSize k
  · obtain ⟨fl', hs', hc', hlt⟩ := takeSplit_spec hk hs hc hvacant hfit hn hsplit
    exact ⟨_, fl', hs', hc', labelAt_split hxs hlt (some n)⟩
  · obtain ⟨fl', hs', hc'⟩ := takeWhole_spec hk hs hc hvacant hfit hn hsplit
    exact ⟨_, fl', hs', hc', labelAt_setMark hxs (some n)⟩

theorem takeItem_startAddr (p freeSize size : ℕ) : (takeItem k h p freeSize size).startAddr = h.startAddr := by
  unfold takeItem
  rw [useItem_startAddr]
  by_cases hsplit : add 32 (add 32 size (memheapSize k)) memheapMinialloc ≤ freeSize
  · rw [if_pos hsplit]
    simp only
    rw [charge_startAddr, insertFree_startAddr, clearFree_startAddr, removeFree_startAddr, newItem_startAddr]
  · rw [if_neg hsplit]
    simp only
    rw [clearFree_startAddr, removeFree_startAddr, charge_startAddr]

/-! ### Allocation -/

theorem searchLoop_spec (hk : k ≤ 30) {bs : List (Tile ℕ)} (hs : Shape k h bs fl) {size : ℕ} :
    ∀ (vs us : List ℕ) (fuel freeSize : ℕ), fl = us ++ vs → vs.length + 2 ≤ fuel → freeSize < size →
      (∃ x, searchLoop k h size fuel (vs.headD h.freeList) freeSize = some (h.freeList, x) ∧ x < size ∧
        ∀ q ∈ vs, memitemSize k h q < size) ∨
      ∃ q ∈ vs, size ≤ memitemSize k h q ∧
        searchLoop k h size fuel (vs.headD h.freeList) freeSize = some (q, memitemSize k h q) := by
  have hnodup := hs.nodup hk
  intro vs
  induction vs with
  | nil =>
    intro us fuel freeSize hfl hfuel hlt
    obtain ⟨fuel, rfl⟩ := Nat.exists_eq_add_of_le' (show 1 ≤ fuel by omega)
    exact Or.inl ⟨freeSize, by simp [searchLoop], hlt, by simp⟩
  | cons q vs ih =>
    intro us fuel freeSize hfl hfuel hlt
    rw [List.length_cons] at hfuel
    obtain ⟨fuel, rfl⟩ := Nat.exists_eq_add_of_le' (show 1 ≤ fuel by omega)
    have hq : q ≠ h.freeList := by
      rintro rfl
      exact (List.nodup_cons.mp hnodup).1 (by simp [hfl])
    rw [List.headD_cons, searchLoop, if_pos ⟨hq, hlt⟩]
    simp only
    by_cases hfit : memitemSize k h q < size
    · rw [if_pos hfit]
      have hnext : h.nextFree q = vs.headD h.freeList := by
        have hring := hs.free
        rw [hfl] at hring
        cases vs with
        | nil => exact hring.next_last
        | cons r vs => exact hring.next_eq
      rw [hnext]
      rcases ih (us ++ [q]) fuel _ (by simp [hfl]) (by omega) hfit with ⟨x, hnone, hx, hall⟩ | ⟨r, hr, hsize, hsome⟩
      · exact Or.inl ⟨x, hnone, hx, List.forall_mem_cons.mpr ⟨hfit, hall⟩⟩
      · exact Or.inr ⟨r, List.mem_cons_of_mem q hr, hsize, hsome⟩
    · rw [if_neg hfit]
      obtain ⟨fuel, rfl⟩ := Nat.exists_eq_add_of_le' (show 1 ≤ fuel by omega)
      refine Or.inr ⟨q, List.mem_cons_self, not_lt.mp hfit, ?_⟩
      rw [searchLoop, if_neg (fun hlt => hfit hlt.2)]

theorem Counted.record (hc : Counted h) : Counted h.record := by
  refine ⟨?_, le_max_right _ _⟩
  show h.maxUsedSize = max h.peak h.used
  rw [max_eq_left hc.2]
  exact hc.1

theorem Shape.length_le (hk : k ≤ 30) {bs : List (Tile ℕ)} (hs : Shape k h bs fl) : fl.length ≤ h.poolSize := by
  calc fl.length = (vacant h.startAddr bs).length := hs.perm.length_eq
    _ ≤ (place h.startAddr bs).length := by
      rw [vacant, List.length_map]
      exact List.length_filter_le _ _
    _ ≤ total bs := by
      rw [length_place]
      exact length_le_total (hs.blocks.pos hk)
    _ ≤ h.poolSize := by
      have := hs.blocks.total_eq
      omega

/-- What a call has done: the labels of the tiles are now `labels`. -/
def Leaves (k : ℕ) (h h' : Memheap) (labels : ℕ → Option ℕ) : Prop :=
  h'.startAddr = h.startAddr ∧ ∃ bs fl, Shape k h' bs fl ∧ Counted h' ∧ labelAt h.startAddr bs = labels

theorem minialloc_le (size : ℕ) : memheapMinialloc ≤ requestSize k size := by
  rw [requestSize]
  split <;> omega

theorem le_requestSize {size : ℕ} (hsize : size + (2 ^ k - 1) < 2 ^ 32) : size ≤ requestSize k size := by
  have := (alignUp_spec hsize).1
  rw [requestSize]
  split <;> omega

theorem Leaves.record {bs : List (Tile ℕ)} (hs : Shape k h bs fl) (hc : Counted h) :
    Leaves k h h.record (labelAt h.startAddr bs) := ⟨rfl, bs, fl, hs.record, hc.record, rfl⟩

/-- The search from the list header: no free item has enough room, or it ends on a vacant tile that has. -/
theorem search_spec (hk : k ≤ 30) {bs : List (Tile ℕ)} (hs : Shape k h bs fl) {size : ℕ} (hpos : 0 < size) :
    ∃ p freeSize, searchLoop k h size h.fuel (h.nextFree h.freeList) 0 = some (p, freeSize) ∧
      (freeSize < size ∧ (∀ q ∈ h.freeItems k, memitemSize k h q < size) ∨
      ∃ xs b ys, bs = xs ++ b :: ys ∧ b.label = none ∧ p = h.startAddr + total xs ∧ freeSize = b.len - memheapSize k ∧
        size + memheapSize k ≤ b.len) := by
  have hfuel : fl.length + 2 ≤ h.fuel := by
    have := hs.length_le hk
    rw [Memheap.fuel]
    omega
  have hmem : ∀ q, q ∈ fl ↔ q ∈ h.freeItems k := fun q => by rw [freeItems_eq hk hs.blocks, hs.perm.mem_iff]
  rw [hs.free.next_first]
  rcases searchLoop_spec hk hs fl [] h.fuel 0 rfl hfuel hpos with ⟨x, hsome, hx, hall⟩ | ⟨q, hq, hfit, hsome⟩
  · exact ⟨h.freeList, x, hsome, Or.inl ⟨hx, fun q hq => hall q ((hmem q).mpr hq)⟩⟩
  · obtain ⟨xs, b, ys, rfl, rfl, hvacant⟩ := mem_vacant (hs.perm.mem_iff.mp hq)
    have hlen := hs.blocks.bounds.1
    rw [hs.blocks.size_eq hk] at hfit hsome
    exact ⟨_, _, hsome, Or.inr ⟨xs, b, ys, rfl, hvacant, rfl, rfl, by omega⟩⟩

/-- `rt_memheap_alloc` fails and changes nothing, or takes a block for its caller. -/
theorem rtMemheapAlloc_spec (hk : k ≤ 30) {bs : List (Tile ℕ)} (hs : Shape k h bs fl) (hc : Counted h) {size n : ℕ}
    (hn : n ≤ requestSize k size) : ∃ r h', rtMemheapAlloc k h size = some (r, h') ∧
      (r = 0 ∧ h' = h.record ∧ ¬AllocFits k h (requestSize k size) ∨
      ∃ p, r = p + memheapSize k ∧ AllocFits k h (requestSize k size) ∧ labelAt h.startAddr bs p = none ∧
        Leaves k h h' (Function.update (labelAt h.startAddr bs) p (some n))) := by
  have hH := memheapSize_spec hk
  have hmin := @minialloc_le k size
  rw [rtMemheapAlloc]
  generalize requestSize k size = req at hn hmin ⊢
  have hpos : 0 < req := Nat.lt_of_lt_of_le (by decide) hmin
  by_cases hlt : req < h.availableSize
  · rw [if_pos hlt]
    obtain ⟨p, freeSize, hsome, ⟨hless, hall⟩ | ⟨xs, b, ys, rfl, hvacant, rfl, rfl, hroom⟩⟩ := search_spec hk hs hpos
    · refine ⟨0, h.record, ?_, Or.inl ⟨rfl, rfl, ?_⟩⟩
      · rw [hsome, Option.map_some, if_neg (not_le.mpr hless)]
      · rintro ⟨-, q, hq, hfit⟩
        exact absurd hfit (not_le.mpr (hall q hq))
    · have hb := hs.blocks
      obtain ⟨hlen, hend⟩ := hb.bounds
      have hbound := hb.bound
      have hfits : AllocFits k h req := by
        refine ⟨hlt, h.startAddr + total xs, ?_, ?_⟩
        · rw [freeItems_eq hk hb, vacant_append, vacant_cons_of_none ys hvacant]
          exact List.mem_append_right _ List.mem_cons_self
        · rw [hb.size_eq hk]
          omega
      obtain ⟨bs', fl', hs', hc', hlabels⟩ := takeItem_spec hk hs hc hvacant hroom (max_le hn hmin)
      refine ⟨h.startAddr + total xs + memheapSize k, _, ?_, Or.inr ⟨h.startAddr + total xs, rfl, hfits, ?_,
        (record_startAddr).trans (takeItem_startAddr _ _ _), bs', fl', hs', hc', hlabels⟩⟩
      · rw [hsome, Option.map_some, if_pos (by simp only; omega), add_of_lt (by simp only; omega)]
      · rw [labelAt_middle (fun c hc => hb.pos hk c (by simp [hc])), hvacant]
  · refine ⟨0, h.record, ?_, Or.inl ⟨rfl, rfl, fun hfits => hlt hfits.1⟩⟩
    rw [if_neg hlt]

end RtThread.Memory.MemHeap
