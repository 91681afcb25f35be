import RtThread.Memory.MemHeapBytes
import RtThread.Memory.MemHeapRuns
import RtThread.Memory.SmallMemOps

/-!
# The data in a memory heap

A call writes items only, but for the copy of `rt_memheap_realloc`: those of the two rings, and the one that is made
anew within the tile that is cut.
-/

namespace RtThread.Memory.MemHeap

open RtThread.Lib.Bytes RtThread.Lib.Rings RtThread.Lib.Tiling RtThread.Lib.Word

variable {k : ℕ} {s s' s'' : Pool} {h h' : Memheap} {C T I F : Set ℕ} {p q : ℕ}

/-- The links lead from the items `I` to one another, and so do those of the free list `F`. -/
structure Links (h : Memheap) (I F : Set ℕ) : Prop where
  next : Set.MapsTo h.next I I
  prev : Set.MapsTo h.prev I I
  nextFree : Set.MapsTo h.nextFree F F
  prevFree : Set.MapsTo h.prevFree F F
  head : h.freeList ∈ F

/-- Only the items `C` have been written, and of these only `T` have another `next` link. -/
structure Frame (C T : Set ℕ) (s s' : Pool) : Prop where
  mem : ChangedAt 24 C s.mem s'.mem
  next : ∀ c, c ∉ T → s'.heap.next c = s.heap.next c

theorem Frame.refl (s : Pool) : Frame C T s s := ⟨ChangedAt.refl _, fun _ _ => rfl⟩

theorem Frame.trans (hf : Frame C T s s') (hf' : Frame C T s' s'') : Frame C T s s'' :=
  ⟨hf.mem.trans hf'.mem, fun c hc => (hf'.next c hc).trans (hf.next c hc)⟩

theorem mapsTo_update {f : ℕ → ℕ} {S : Set ℕ} (hf : Set.MapsTo f S S) {v : ℕ} (hv : v ∈ S) (a : ℕ) :
    Set.MapsTo (Function.update f a v) S S := by
  intro c hc
  by_cases he : c = a
  · rw [he, Function.update_self]
    exact hv
  · rw [Function.update_of_ne he]
    exact hf hc

/-! ### One item -/

theorem changedAt_assigns {l : List Assign} (m : Mem) (hl : ∀ a ∈ l, a.item ∈ C) :
    ChangedAt 24 C m (l.foldl Assign.store m) := by
  induction l generalizing m with
  | nil => exact ChangedAt.refl m
  | cons a l ih =>
    have hfirst : ChangedAt 24 C m (a.store m) := by
      refine changedAt_store m a.value (hl a List.mem_cons_self) ?_
      cases a.field <;> decide
    exact hfirst.trans (ih (a.store m) fun b hb => hl b (List.mem_cons_of_mem a hb))

theorem Frame.charge (hf : Frame C T s s') (x : ℕ) : Frame C T s (s'.charge x) := ⟨hf.mem, hf.next⟩

theorem Frame.withAvailable (hf : Frame C T s s') (x : ℕ) : Frame C T s (s'.withAvailable x) := ⟨hf.mem, hf.next⟩

theorem Frame.record (hf : Frame C T s s') : Frame C T s s'.record := ⟨hf.mem, hf.next⟩

theorem Frame.useItem (hf : Frame C T s s') (hp : p ∈ C) : Frame C T s (s'.useItem p) := by
  refine hf.trans ⟨changedAt_assigns _ ?_, fun _ _ => rfl⟩
  simp [useItemAssigns, hp]

theorem Frame.unuseItem (hf : Frame C T s s') (hp : p ∈ C) : Frame C T s (s'.unuseItem p) := by
  refine hf.trans ⟨changedAt_assigns _ ?_, fun _ _ => rfl⟩
  simp [unuseItemAssigns, hp]

theorem Frame.clearFree (hf : Frame C T s s') (hp : p ∈ C) : Frame C T s (s'.clearFree p) := by
  refine hf.trans ⟨changedAt_assigns _ ?_, fun _ _ => rfl⟩
  simp [clearFreeAssigns, hp]

theorem Frame.insertFree (hf : Frame C T s s') (hp : p ∈ C) (hhead : s'.heap.freeList ∈ C)
    (hn : s'.heap.nextFree s'.heap.freeList ∈ C) : Frame C T s (s'.insertFree p) := by
  refine hf.trans ⟨changedAt_assigns _ ?_, fun _ _ => rfl⟩
  simp [insertFreeAssigns, hp, hhead, hn]

theorem Frame.removeFree (hf : Frame C T s s') (hn : s'.heap.nextFree p ∈ C) (hv : s'.heap.prevFree p ∈ C) :
    Frame C T s (s'.removeFree p) := by
  refine hf.trans ⟨changedAt_assigns _ ?_, fun _ _ => rfl⟩
  simp [removeFreeAssigns, hn, hv]

theorem Frame.newItem (hf : Frame C T s s') (hp : p ∈ C) (hq : q ∈ C) (hn : s'.heap.next p ∈ C) (hpT : p ∈ T)
    (hqT : q ∈ T) : Frame C T s (s'.newItem p q) := by
  refine hf.trans ⟨changedAt_assigns _ ?_, fun c hc => ?_⟩
  · simp [newItemAssigns, hp, hq, hn]
  · have hcp : c ≠ p := fun he => hc (by rwa [he])
    have hcq : c ≠ q := fun he => hc (by rwa [he])
    rw [Pool.newItem_heap, MemHeap.newItem]
    simp only
    rw [Function.update_of_ne hcp, Function.update_of_ne hcq]

theorem Frame.mergeItem (hf : Frame C T s s') (hp : p ∈ C) (hn : s'.heap.next q ∈ C) (hpT : p ∈ T) :
    Frame C T s (s'.mergeItem p q) := by
  refine hf.trans ⟨changedAt_assigns _ ?_, fun c hc => ?_⟩
  · simp [mergeItemAssigns, hp, hn]
  · have hcp : c ≠ p := fun he => hc (by rwa [he])
    exact Function.update_of_ne hcp _ _

theorem Links.newItem (hl : Links h I F) (hp : p ∈ I) : Links (newItem h p q) (insert q I) F := by
  have hq := Set.mem_insert q I
  have hgrow : ∀ {f : ℕ → ℕ} {v : ℕ}, Set.MapsTo f I I → v ∈ insert q I →
      Set.MapsTo (Function.update f q v) (insert q I) (insert q I) := by
    intro f v hf hv c hc
    by_cases he : c = q
    · rw [he, Function.update_self]
      exact hv
    · rw [Function.update_of_ne he]
      exact Set.mem_insert_of_mem q (hf (hc.resolve_left he))
  refine ⟨?_, ?_, hl.nextFree, hl.prevFree, hl.head⟩
  · exact mapsTo_update (hgrow hl.next (Set.mem_insert_of_mem q (hl.next hp))) hq p
  · exact mapsTo_update (hgrow hl.prev (Set.mem_insert_of_mem q hp)) hq _

theorem Links.mergeItem (hl : Links h I F) (hp : p ∈ I) (hq : q ∈ I) : Links (mergeItem h p q) I F :=
  ⟨mapsTo_update hl.next (hl.next hq) p, mapsTo_update hl.prev hp _, hl.nextFree, hl.prevFree, hl.head⟩

theorem Links.removeFree (hl : Links h I F) (hp : p ∈ F) : Links (removeFree h p) I F := by
  have hprev := mapsTo_update hl.prevFree (hl.prevFree hp) (h.nextFree p)
  exact ⟨hl.next, hl.prev, mapsTo_update hl.nextFree (hl.nextFree hp) _, hprev, hl.head⟩

theorem Links.withAvailable (hl : Links h I F) (x : ℕ) : Links (h.withAvailable x) I F :=
  ⟨hl.next, hl.prev, hl.nextFree, hl.prevFree, hl.head⟩

theorem Links.charge (hl : Links h I F) (x : ℕ) : Links (h.charge x) I F :=
  ⟨hl.next, hl.prev, hl.nextFree, hl.prevFree, hl.head⟩

theorem Links.unuseItem (hl : Links h I F) (p : ℕ) : Links (unuseItem h p) I F :=
  ⟨hl.next, hl.prev, hl.nextFree, hl.prevFree, hl.head⟩

/-! ### The calls -/

/-- The item at `p` is taken: the items of the rings are written, and the new one if there is one. -/
theorem takeItem_frame {freeSize size : ℕ} (hl : Links s.heap I F) (hI : I ⊆ C) (hF : F ⊆ C) (hp : p ∈ I) (hpF : p ∈ F)
    (hne : s.heap.freeList ≠ p) (hpT : p ∈ T)
    (hsplit : add 32 (add 32 size (memheapSize k)) memheapMinialloc ≤ freeSize →
      add 32 (add 32 p size) (memheapSize k) ∈ C ∧ add 32 (add 32 p size) (memheapSize k) ∈ T) :
    Frame C T s (s.takeItem k p freeSize size) := by
  unfold Pool.takeItem
  simp only
  split
  · rename_i hle
    obtain ⟨hq, hqT⟩ := hsplit hle
    generalize add 32 (add 32 p size) (memheapSize k) = q at hq hqT
    have hcut := ((Frame.refl s).newItem (hI hp) hq (hI (hl.next hp)) hpT hqT).removeFree
      (hF (hl.nextFree hpF)) (hF (hl.prevFree hpF))
    have hlinks := (hl.newItem hp (q := q)).removeFree hpF
    have hnext : (((s.newItem p q).removeFree p).clearFree p).heap.nextFree s.heap.freeList ∈ C := by
      rw [Pool.clearFree_heap, MemHeap.clearFree]
      simp only
      rw [Function.update_of_ne hne]
      exact hF (hlinks.nextFree hl.head)
    exact (((hcut.clearFree (hI hp)).insertFree hq (hF hl.head) hnext).charge _).useItem (hI hp)
  · have hcharge := (@Frame.refl C T s).charge (sub 32 s.heap.availableSize freeSize)
    exact ((hcharge.removeFree (hF (hl.nextFree hpF)) (hF (hl.prevFree hpF))).clearFree (hI hp)).useItem (hI hp)

theorem join_frame (hl : Links s.heap I F) (hI : I ⊆ C) (hF : F ⊆ C) (hp : p ∈ I) (hpT : p ∈ T) (hn : s.heap.next p ∈ F)
    (x : ℕ) : Frame C T s (((s.withAvailable x).mergeItem p (s.heap.next p)).removeFree (s.heap.next p)) ∧
      Links (((s.withAvailable x).mergeItem p (s.heap.next p)).removeFree (s.heap.next p)).heap I F := by
  constructor
  · have hmerge := ((@Frame.refl C T s).withAvailable x).mergeItem (hI hp) (hI (hl.next (hl.next hp))) hpT
    exact hmerge.removeFree (hF (hl.nextFree hn)) (hF (hl.prevFree hn))
  · exact ((hl.withAvailable x).mergeItem hp (hl.next hp)).removeFree hn

theorem mergeNext_frame (hl : Links s.heap I F) (hI : I ⊆ C) (hF : F ⊆ C) (hp : p ∈ I) (hpT : p ∈ T)
    (hn : ¬s.heap.isUsed (s.heap.next p) → s.heap.next p ∈ F) :
    Frame C T s (s.mergeNext k p) ∧ Links (s.mergeNext k p).heap I F := by
  unfold Pool.mergeNext
  simp only
  split
  · rename_i hfree
    exact join_frame hl hI hF hp hpT (hn hfree) _
  · exact ⟨Frame.refl s, hl⟩

theorem absorbNext_frame (hl : Links s.heap I F) (hI : I ⊆ C) (hF : F ⊆ C) (hp : p ∈ I) (hpT : p ∈ T)
    (hn : ¬s.heap.isUsed (s.heap.next p) → s.heap.next p ∈ F) :
    Frame C T s (s.absorbNext k p) ∧ Links (s.absorbNext k p).heap I F := by
  unfold Pool.absorbNext
  simp only
  split
  · rename_i hfree
    exact join_frame hl hI hF hp hpT (hn hfree) _
  · exact ⟨Frame.refl s, hl⟩

theorem mergePrev_frame (hl : Links s.heap I F) (hI : I ⊆ C) (hp : p ∈ I) (hpT : p ∈ T)
    (hT : ¬s.heap.isUsed (s.heap.prev p) → s.heap.prev p ∈ T) :
    ∃ q insertHeader s', s.mergePrev k p = (q, insertHeader, s') ∧ q ∈ I ∧ q ∈ T ∧ Frame C T s s' ∧ Links s'.heap I F ∧
      s'.heap.next q = s.heap.next p ∧ s'.heap.isUsed = s.heap.isUsed := by
  unfold Pool.mergePrev
  split
  · rename_i hfree
    refine ⟨s.heap.prev p, false, _, rfl, hl.prev hp, hT hfree, ?_, ?_, ?_, rfl⟩
    · exact ((Frame.refl s).withAvailable _).mergeItem (hI (hl.prev hp)) (hI (hl.next hp)) (hT hfree)
    · exact (hl.withAvailable _).mergeItem (hl.prev hp) hp
    · exact Function.update_self ..
  · exact ⟨p, true, s, rfl, hp, hpT, Frame.refl s, hl, rfl, rfl⟩

theorem dropItem_isUsed {c : ℕ} (hc : c ≠ p) : (s.dropItem k p).heap.isUsed c ↔ s.heap.isUsed c := by
  show Function.update s.heap.magic p (s.heap.magic p &&& memheapMask) c &&& memheapUsed ≠ 0 ↔ _
  rw [Function.update_of_ne hc]
  rfl

theorem settle_frame {insertHeader : Bool} (hl : Links s.heap I F) (hI : I ⊆ C) (hF : F ⊆ C) (hp : p ∈ I) (hpT : p ∈ T)
    (hn : ¬s.heap.isUsed (s.heap.next p) → s.heap.next p ∈ F) : Frame C T s (Pool.settle k (p, insertHeader, s)) := by
  obtain ⟨hframe, hlinks⟩ := mergeNext_frame (k := k) hl hI hF hp hpT hn
  unfold Pool.settle
  cases insertHeader with
  | true => exact (hframe.insertFree (hI hp) (hF hlinks.head) (hF (hlinks.nextFree hlinks.head))).record
  | false => exact hframe.record

theorem rtMemheapFree_frame {ptr : ℕ} (hl : Links s.heap I F) (hI : I ⊆ C) (hF : F ⊆ C) (hp : p ∈ I)
    (hptr : sub 32 ptr (memheapSize k) = p) (hself : s.heap.next p ≠ p) (hpT : p ∈ T)
    (hfree : ∀ c ∈ I, ¬s.heap.isUsed c → c ∈ F ∧ c ∈ T) (hrun : s.rtMemheapFree k ptr = some s') : Frame C T s s' := by
  unfold Pool.rtMemheapFree at hrun
  simp only [hptr] at hrun
  split at hrun
  · cases hrun
    exact (Frame.refl s).record
  · split at hrun
    · rw [← Option.some.inj hrun]
      have hframe : Frame C T s (s.dropItem k p) := ((Frame.refl s).unuseItem (hI hp)).withAvailable _
      have hlinks : Links (s.dropItem k p).heap I F := (hl.unuseItem p).withAvailable _
      have hnext : (s.dropItem k p).heap.next p = s.heap.next p := rfl
      obtain ⟨q, insertHeader, s₁, hprev, hq, hqT, hframe₁, hlinks₁, hnext₁, hused₁⟩ :=
        mergePrev_frame (k := k) hlinks hI hp hpT fun hnot => by
          by_cases he : (s.dropItem k p).heap.prev p = p
          · rw [he]
            exact hpT
          · exact (hfree _ (hlinks.prev hp) fun hu => hnot ((dropItem_isUsed he).mpr hu)).2
      rw [hnext] at hnext₁
      rw [hprev]
      refine hframe.trans (hframe₁.trans (settle_frame hlinks₁ hI hF hq hqT fun hnot => ?_))
      rw [hnext₁, hused₁, dropItem_isUsed hself] at hnot
      rw [hnext₁]
      exact (hfree _ (hl.next hp) hnot).1
    · cases hrun

theorem regrow_frame {n : ℕ} (hl : Links s.heap I F) (hI : I ⊆ C) (hF : F ⊆ C) (hp : p ∈ I) (hpT : p ∈ T)
    (hnext : s.heap.next p = n) (hn : n ∈ F) (hprev : s.heap.prev n = p) (hq : q ∈ C) (hqT : q ∈ T) :
    Frame C T s ((((s.removeFree n).mergeItem (s.heap.prev n) n).newItem p q).insertFree q) := by
  rw [hprev]
  have hnI : n ∈ I := hnext ▸ hl.next hp
  have hjoined : Links ((s.removeFree n).mergeItem p n).heap I F := (hl.removeFree hn).mergeItem hp hnI
  have hremove := ((Frame.refl s).removeFree (hF (hl.nextFree hn)) (hF (hl.prevFree hn))).mergeItem (hI hp)
    (hI (hl.next hnI)) hpT
  have hnew := hremove.newItem (hI hp) hq (hI (hjoined.next hp)) hpT hqT
  exact hnew.insertFree hq (hF hjoined.head) (hF (hjoined.nextFree hjoined.head))

theorem growItem_frame {oldsize newsize : ℕ} (hl : Links s.heap I F) (hI : I ⊆ C) (hF : F ⊆ C) (hp : p ∈ I) (hpT : p ∈ T)
    (hn : s.heap.next p ∈ F) (hprev : s.heap.prev (s.heap.next p) = p)
    (hq : add 32 (add 32 p (memheapSize k)) newsize ∈ C) (hqT : add 32 (add 32 p (memheapSize k)) newsize ∈ T) :
    Frame C T s (s.growItem k p oldsize newsize) := by
  unfold Pool.growItem
  exact ((Frame.refl s).charge _).trans (regrow_frame (hl.charge _) hI hF hp hpT rfl hn hprev hq hqT)

theorem shrinkItem_frame {newsize : ℕ} (hl : Links s.heap I F) (hI : I ⊆ C) (hF : F ⊆ C) (hp : p ∈ I) (hpT : p ∈ T)
    (hfree : ∀ c ∈ I, ¬s.heap.isUsed c → c ∈ F) (hq : add 32 (add 32 p newsize) (memheapSize k) ∈ C)
    (hqT : add 32 (add 32 p newsize) (memheapSize k) ∈ T) (hpq : p ≠ add 32 (add 32 p newsize) (memheapSize k))
    (hself : s.heap.next p ≠ add 32 (add 32 p newsize) (memheapSize k)) : Frame C T s (s.shrinkItem k p newsize) := by
  unfold Pool.shrinkItem
  generalize add 32 (add 32 p newsize) (memheapSize k) = q at hq hqT hpq hself
  have hnew := (Frame.refl s).newItem (hI hp) hq (hI (hl.next hp)) hpT hqT
  have hlinks := hl.newItem (q := q) hp
  have hnext : (s.newItem p q).heap.next q = s.heap.next p := by
    rw [Pool.newItem_heap, newItem_eq hpq]
    simp only
    rw [Function.update_of_ne hpq.symm, Function.update_self]
  have hused : (s.newItem p q).heap.isUsed (s.heap.next p) ↔ s.heap.isUsed (s.heap.next p) := by
    rw [Pool.newItem_heap, newItem_eq hpq, Memheap.isUsed, Memheap.isUsed]
    simp only
    rw [Function.update_of_ne hself]
  obtain ⟨habsorb, hlinks'⟩ := absorbNext_frame (k := k) hlinks (Set.insert_subset hq hI) hF (Set.mem_insert q I) hqT
    fun hnot => by
      rw [hnext] at hnot ⊢
      exact hfree _ (hl.next hp) fun hu => hnot (hused.mpr hu)
  exact ((hnew.trans habsorb).insertFree hq (hF hlinks'.head) (hF (hlinks'.nextFree hlinks'.head))).withAvailable _

/-! ### What the tiles say -/

variable {bs xs ys : List (Tile ℕ)} {a b : Tile ℕ} {fl : List ℕ}

/-- The items of the two rings: those of the pool, and the header of the free list. -/
def items (h : Memheap) (bs : List (Tile ℕ)) : Set ℕ := insert h.freeList {c | c ∈ ends h.startAddr bs}

/-- The header of the free list lies outside of the pool, all of it. -/
def HeaderOutside (h : Memheap) : Prop := h.freeList + 24 ≤ h.startAddr ∨ h.startAddr + h.poolSize ≤ h.freeList

theorem free_mem_ends (hs : Shape k h bs fl) {c : ℕ} (hc : c ∈ fl) : c ∈ ends h.startAddr bs :=
  List.mem_append_left _ (vacant_subset_place _ _ (hs.perm.mem_iff.mp hc))

theorem Shape.links (hs : Shape k h bs fl) : Links h {c | c ∈ ends h.startAddr bs} {c | c ∈ h.freeList :: fl} :=
  ⟨fun _ hc => hs.blocks.ring.next_mem hc, fun _ hc => hs.blocks.ring.prev_mem hc, fun _ hc => hs.free.next_mem hc,
    fun _ hc => hs.free.prev_mem hc, List.mem_cons_self⟩

theorem Shape.ring_subset (_ : Shape k h bs fl) : {c | c ∈ ends h.startAddr bs} ⊆ items h bs := Set.subset_insert _ _

theorem Shape.free_subset (hs : Shape k h bs fl) : {c | c ∈ h.freeList :: fl} ⊆ items h bs := by
  intro c hc
  rcases List.mem_cons.mp hc with rfl | hc
  · exact Set.mem_insert _ _
  · exact Set.mem_insert_of_mem _ (free_mem_ends hs hc)

theorem Shape.mem_free (hs : Shape k h bs fl) {c : ℕ} (hc : c ∈ ends h.startAddr bs) (hnot : ¬h.isUsed c) : c ∈ fl := by
  rcases List.mem_append.mp hc with hc | hc
  · have hfree : c ∈ ((place h.startAddr bs).map Prod.fst).filter (fun p => ¬h.isUsed p) := by
      rw [List.mem_filter]
      exact ⟨hc, decide_eq_true hnot⟩
    rw [hs.blocks.filter_free] at hfree
    exact hs.perm.mem_iff.mpr hfree
  · rw [List.mem_singleton.mp hc] at hnot
    exact absurd hs.blocks.tail_isUsed hnot

theorem items_apart (hk : k ≤ 30) (hs : Shape k h bs fl) (hout : HeaderOutside h) {x : ℕ × Tile ℕ}
    (hx : x ∈ place h.startAddr bs) {c : ℕ} (hc : c ∈ items h bs) :
    c + 24 ≤ x.1 + memheapSize k ∨ x.1 + x.2.len ≤ c := by
  have hH := (memheapSize_spec hk).1
  have htotal := hs.blocks.total_eq
  have hrange := mem_place hx
  rcases hc with rfl | hc
  · rw [HeaderOutside] at hout
    omega
  · have := ends_apart hx hc
    omega

theorem Blocks.next_place (hb : Blocks k h bs) {x : ℕ × Tile ℕ} (hx : x ∈ place h.startAddr bs) :
    h.next x.1 = x.1 + x.2.len := by
  obtain ⟨xs, ys, rfl, hp⟩ := exists_append_of_mem_place hx
  rw [hp]
  exact hb.next_eq

/-- The data and the end of the block at `p` are those from before. -/
def Spares (k : ℕ) (s s' : Pool) (p : ℕ) : Prop :=
  s'.heap.next p = s.heap.next p ∧ Set.EqOn s'.mem s.mem (dataRange k s.heap p)

theorem Spares.refl (s : Pool) (p : ℕ) : Spares k s s p := ⟨rfl, Set.eqOn_refl _ _⟩

theorem Spares.trans (hs : Spares k s s' p) (hs' : Spares k s' s'' p) : Spares k s s'' p := by
  obtain ⟨hnext, hdata⟩ := hs
  obtain ⟨hnext', hdata'⟩ := hs'
  rw [dataRange, hnext] at hdata'
  exact ⟨hnext'.trans hnext, hdata'.trans hdata⟩

theorem Spares.record (hs : Spares k s s' p) : Spares k s s'.record p := ⟨hs.1, hs.2⟩

theorem Frame.spares (hf : Frame C T s s') (hp : p ∉ T)
    (hC : ∀ c ∈ C, c + 24 ≤ p + memheapSize k ∨ s.heap.next p ≤ c) : Spares k s s' p :=
  ⟨hf.next p hp, hf.mem.eqOn hC⟩

/-! ### What is kept -/

/-- The blocks keep their data when the items are written and one at `q` that does not reach into them. -/
theorem Frame.others (hk : k ≤ 30) (hs : Shape k s.heap bs fl) (hout : HeaderOutside s.heap)
    (hf : Frame (insert q (items s.heap bs)) {p, q} s s') {x : ℕ × Tile ℕ} (hx : x ∈ place s.heap.startAddr bs)
    (hne : x.1 ≠ p) (hq : x.1 + x.2.len ≤ q ∨ q + 24 ≤ x.1) : Spares k s s' x.1 := by
  have hH := (memheapSize_spec hk).1
  have hlen : memheapSize k ≤ x.2.len := by
    obtain ⟨xs, ys, rfl, -⟩ := exists_append_of_mem_place hx
    exact hs.blocks.len _ (by simp)
  refine hf.spares ?_ fun c hc => ?_
  · rintro (he | he)
    · exact hne he
    · have hxq : x.1 = q := he
      omega
  · rw [hs.blocks.next_place hx]
    rcases hc with rfl | hc
    · omega
    · exact items_apart hk hs hout hx hc

theorem takeItem_data (hk : k ≤ 30) (hs : Shape k s.heap (xs ++ b :: ys) fl) (hout : HeaderOutside s.heap)
    (hvacant : b.label = none) {size : ℕ} (hfit : size + memheapSize k ≤ b.len) {x : ℕ × Tile ℕ}
    (hx : x ∈ held s.heap.startAddr (xs ++ b :: ys)) :
    Spares k s (s.takeItem k (s.heap.startAddr + total xs) (b.len - memheapSize k) size) x.1 := by
  have hH := (memheapSize_spec hk).1
  have hmini : memheapMinialloc = 12 := rfl
  have hb := hs.blocks
  obtain ⟨hlen, hend⟩ := hb.bounds
  have hbound := hb.bound
  obtain ⟨hplace, hlabel⟩ := List.mem_filter.mp hx
  have hp : (s.heap.startAddr + total xs, b) ∈ place s.heap.startAddr (xs ++ b :: ys) := by simp [place]
  have hpF : s.heap.startAddr + total xs ∈ fl := by
    refine hs.perm.mem_iff.mpr ?_
    rw [vacant_append, vacant_cons_of_none ys hvacant]
    exact List.mem_append_right _ List.mem_cons_self
  have hpI := free_mem_ends hs hpF
  have hne : x.1 ≠ s.heap.startAddr + total xs := by
    intro he
    rw [place_unique (hb.pos hk) hplace hp he, hvacant] at hlabel
    cases hlabel
  have hhead : s.heap.freeList ≠ s.heap.startAddr + total xs := by
    have := hs.outside
    omega
  have hapart := place_apart hplace hp fun he => hne (congrArg Prod.fst he)
  simp only at hapart
  have hring := hs.ring_subset
  have hfree := hs.free_subset
  by_cases hsplit : add 32 (add 32 size (memheapSize k)) memheapMinialloc ≤ b.len - memheapSize k
  · have hroom := hsplit
    rw [add_add_of_lt (by omega)] at hroom
    have hq : add 32 (add 32 (s.heap.startAddr + total xs) size) (memheapSize k) =
        s.heap.startAddr + total xs + size + memheapSize k := add_add_of_lt (by omega)
    have hf : Frame (insert (s.heap.startAddr + total xs + size + memheapSize k) (items s.heap (xs ++ b :: ys)))
        {s.heap.startAddr + total xs, s.heap.startAddr + total xs + size + memheapSize k} s
        (s.takeItem k (s.heap.startAddr + total xs) (b.len - memheapSize k) size) := by
      refine takeItem_frame hs.links (hring.trans (Set.subset_insert _ _)) (hfree.trans (Set.subset_insert _ _)) hpI
        (List.mem_cons_of_mem _ hpF) hhead (Set.mem_insert _ _) fun _ => ?_
      rw [hq]
      exact ⟨Set.mem_insert _ _, Set.mem_insert_of_mem _ rfl⟩
    exact hf.others hk hs hout hplace hne (by omega)
  · have hf : Frame (insert (s.heap.startAddr + total xs) (items s.heap (xs ++ b :: ys)))
        {s.heap.startAddr + total xs, s.heap.startAddr + total xs} s
        (s.takeItem k (s.heap.startAddr + total xs) (b.len - memheapSize k) size) :=
      takeItem_frame hs.links (hring.trans (Set.subset_insert _ _)) (hfree.trans (Set.subset_insert _ _)) hpI
        (List.mem_cons_of_mem _ hpF) hhead (Set.mem_insert _ _) fun hle => absurd hle hsplit
    exact hf.others hk hs hout hplace hne (by omega)

theorem rtMemheapAlloc_data (hk : k ≤ 30) (hs : Shape k s.heap bs fl) (hout : HeaderOutside s.heap) {size r : ℕ}
    (hrun : s.rtMemheapAlloc k size = some (r, s')) :
    (r = 0 → s'.mem = s.mem) ∧ ∀ x ∈ held s.heap.startAddr bs, Spares k s s' x.1 := by
  have hH := (memheapSize_spec hk).1
  have hmin := @minialloc_le k size
  unfold Pool.rtMemheapAlloc at hrun
  generalize requestSize k size = req at hmin hrun
  have hmini : memheapMinialloc = 12 := rfl
  simp only at hrun
  split at hrun
  · obtain ⟨p, freeSize, hsome, hends⟩ := search_spec hk hs (show 0 < req by omega)
    rw [hsome, Option.map_some] at hrun
    split at hrun
    · cases hrun
      obtain ⟨hless, -⟩ | ⟨xs, b, ys, rfl, hvacant, rfl, rfl, hroom⟩ := hends
      · omega
      · have hbound := hs.blocks.bound
        have hbounds := hs.blocks.bounds
        refine ⟨fun hnull => ?_, fun x hx => (takeItem_data hk hs hout hvacant hroom hx).record⟩
        simp only at hnull
        rw [add_of_lt (by omega)] at hnull
        omega
    · cases hrun
      exact ⟨fun _ => rfl, fun x _ => Spares.refl s x.1⟩
  · cases hrun
    exact ⟨fun _ => rfl, fun x _ => Spares.refl s x.1⟩

theorem rtMemheapFree_data (hk : k ≤ 30) (hs : Shape k s.heap (xs ++ b :: ys) fl) (hout : HeaderOutside s.heap)
    (hrun : s.rtMemheapFree k (s.heap.startAddr + total xs + memheapSize k) = some s') {x : ℕ × Tile ℕ}
    (hx : x ∈ held s.heap.startAddr (xs ++ b :: ys)) (hne : x.1 ≠ s.heap.startAddr + total xs) : Spares k s s' x.1 := by
  have hH := (memheapSize_spec hk).1
  have hb := hs.blocks
  obtain ⟨hlen, hend⟩ := hb.bounds
  have hbound := hb.bound
  obtain ⟨hplace, hlabel⟩ := List.mem_filter.mp hx
  have hp : (s.heap.startAddr + total xs, b) ∈ place s.heap.startAddr (xs ++ b :: ys) := by simp [place]
  have hptr : sub 32 (s.heap.startAddr + total xs + memheapSize k) (memheapSize k) = s.heap.startAddr + total xs := by
    rw [sub_of_le (Nat.le_add_left _ _) (by omega), Nat.add_sub_cancel]
  have hnext := hb.next_place hp
  have hf : Frame (items s.heap (xs ++ b :: ys)) {c | c = s.heap.startAddr + total xs ∨ ¬s.heap.isUsed c} s s' := by
    refine rtMemheapFree_frame hs.links hs.ring_subset hs.free_subset ?_ hptr ?_ (Or.inl rfl) ?_ hrun
    · exact List.mem_append_left _ (List.mem_map_of_mem hp)
    · rw [hnext]
      simp only
      omega
    · exact fun c hc hnot => ⟨List.mem_cons_of_mem _ (hs.mem_free hc hnot), Or.inr hnot⟩
  refine hf.spares ?_ fun c hc => ?_
  · rintro (he | hnot)
    · exact hne he
    · refine hnot ?_
      rw [Memheap.isUsed, (hb.item x hplace).1]
      exact (mark_isUsed _).mpr hlabel
  · rw [hb.next_place hplace]
    exact items_apart hk hs hout hplace hc

theorem growItem_data (hk : k ≤ 30) (hs : Shape k s.heap (xs ++ a :: b :: ys) fl) (hout : HeaderOutside s.heap)
    (hvacant : b.label = none) {oldsize newsize : ℕ} (hsize : a.len ≤ memheapSize k + newsize)
    (hroom : memheapSize k + newsize + 24 ≤ a.len + b.len) :
    Set.EqOn (s.growItem k (s.heap.startAddr + total xs) oldsize newsize).mem s.mem
        (dataRange k s.heap (s.heap.startAddr + total xs)) ∧
      ∀ x ∈ held s.heap.startAddr (xs ++ a :: b :: ys), x.1 ≠ s.heap.startAddr + total xs →
        Spares k s (s.growItem k (s.heap.startAddr + total xs) oldsize newsize) x.1 := by
  have hH := (memheapSize_spec hk).1
  have hb := hs.blocks
  obtain ⟨hlen, hend⟩ := hb.bounds
  rw [total] at hend
  have hbound := hb.bound
  have hp : (s.heap.startAddr + total xs, a) ∈ place s.heap.startAddr (xs ++ a :: b :: ys) := by simp [place]
  have hn : (s.heap.startAddr + total xs + a.len, b) ∈ place s.heap.startAddr (xs ++ a :: b :: ys) := by simp [place]
  have hnext : s.heap.next (s.heap.startAddr + total xs) = s.heap.startAddr + total xs + a.len := hb.next_eq
  have hnF : s.heap.startAddr + total xs + a.len ∈ fl := by
    refine hs.perm.mem_iff.mpr ((vacant_join _ hvacant).mem_iff.mpr List.mem_cons_self)
  have hq : add 32 (add 32 (s.heap.startAddr + total xs) (memheapSize k)) newsize =
      s.heap.startAddr + total xs + memheapSize k + newsize := add_add_of_lt (by omega)
  generalize hqe : s.heap.startAddr + total xs + memheapSize k + newsize = q at hq
  have hf : Frame (insert q (items s.heap (xs ++ a :: b :: ys))) {s.heap.startAddr + total xs, q} s
      (s.growItem k (s.heap.startAddr + total xs) oldsize newsize) := by
    refine growItem_frame hs.links (hs.ring_subset.trans (Set.subset_insert _ _)) (hs.free_subset.trans (Set.subset_insert _ _))
      (List.mem_append_left _ (List.mem_map_of_mem hp)) (Set.mem_insert _ _) ?_ ?_ ?_ ?_
    · rw [hnext]
      exact List.mem_cons_of_mem _ hnF
    · rw [hnext]
      exact hb.prev_eq
    · rw [hq]
      exact Set.mem_insert _ _
    · rw [hq]
      exact Set.mem_insert_of_mem _ rfl
  refine ⟨hf.mem.eqOn fun c hc => ?_, fun x hx hne => ?_⟩
  · rw [hnext]
    rcases hc with rfl | hc
    · omega
    · exact items_apart hk hs hout hp hc
  · obtain ⟨hplace, hlabel⟩ := List.mem_filter.mp hx
    have hne' : x.1 ≠ s.heap.startAddr + total xs + a.len := by
      intro he
      rw [place_unique (hb.pos hk) hplace hn he, hvacant] at hlabel
      cases hlabel
    have hapart := place_apart hplace hp fun he => hne (congrArg Prod.fst he)
    have hapart' := place_apart hplace hn fun he => hne' (congrArg Prod.fst he)
    simp only at hapart hapart'
    exact hf.others hk hs hout hplace hne (by omega)

theorem shrinkItem_data (hk : k ≤ 30) (hs : Shape k s.heap (xs ++ a :: ys) fl) (hout : HeaderOutside s.heap) {newsize : ℕ}
    (hsize : newsize + memheapSize k + memheapMinialloc < a.len - memheapSize k) :
    Set.EqOn (s.shrinkItem k (s.heap.startAddr + total xs) newsize).mem s.mem
        (Set.Ico (s.heap.startAddr + total xs + memheapSize k) (s.heap.startAddr + total xs + memheapSize k + newsize)) ∧
      ∀ x ∈ held s.heap.startAddr (xs ++ a :: ys), x.1 ≠ s.heap.startAddr + total xs →
        Spares k s (s.shrinkItem k (s.heap.startAddr + total xs) newsize) x.1 := by
  have hH := (memheapSize_spec hk).1
  have hb := hs.blocks
  obtain ⟨hlen, hend⟩ := hb.bounds
  have hbound := hb.bound
  have hp : (s.heap.startAddr + total xs, a) ∈ place s.heap.startAddr (xs ++ a :: ys) := by simp [place]
  have hnext : s.heap.next (s.heap.startAddr + total xs) = s.heap.startAddr + total xs + a.len := hb.next_eq
  have hq : add 32 (add 32 (s.heap.startAddr + total xs) newsize) (memheapSize k) =
      s.heap.startAddr + total xs + newsize + memheapSize k := add_add_of_lt (by omega)
  generalize hqe : s.heap.startAddr + total xs + newsize + memheapSize k = q at hq
  have hf : Frame (insert q (items s.heap (xs ++ a :: ys))) {s.heap.startAddr + total xs, q} s
      (s.shrinkItem k (s.heap.startAddr + total xs) newsize) := by
    refine shrinkItem_frame hs.links (hs.ring_subset.trans (Set.subset_insert _ _))
      (hs.free_subset.trans (Set.subset_insert _ _)) (List.mem_append_left _ (List.mem_map_of_mem hp)) (Set.mem_insert _ _)
      (fun c hc hnot => List.mem_cons_of_mem _ (hs.mem_free hc hnot)) ?_ ?_ ?_ ?_
    · rw [hq]
      exact Set.mem_insert _ _
    · rw [hq]
      exact Set.mem_insert_of_mem _ rfl
    · omega
    · omega
  refine ⟨hf.mem.eqOn fun c hc => ?_, fun x hx hne => ?_⟩
  · rcases hc with rfl | hc
    · omega
    · have := items_apart hk hs hout hp hc
      simp only at this
      omega
  · have hplace := (List.mem_filter.mp hx).1
    have hapart := place_apart hplace hp fun he => hne (congrArg Prod.fst he)
    simp only at hapart
    exact hf.others hk hs hout hplace hne (by omega)

theorem HeaderOutside.of_region (hout : HeaderOutside h) (hregion : h'.region = h.region) : HeaderOutside h' := by
  simp only [Memheap.region, Prod.mk.injEq] at hregion
  obtain ⟨hstart, hpool, hfree⟩ := hregion
  rw [HeaderOutside, hstart, hpool, hfree]
  exact hout

theorem mem_held_of_labelAt {n p q : ℕ} (hp : labelAt p bs q = some n) : ∃ b, (q, b) ∈ held p bs ∧ b.label = some n := by
  obtain ⟨xs, b, ys, rfl, rfl, hb⟩ := labelAt_eq_some hp
  refine ⟨b, List.mem_filter.mpr ⟨by simp [place], ?_⟩, hb⟩
  rw [hb]
  rfl

theorem labelAt_of_mem_held (hk : k ≤ 30) (hb : Blocks k h bs) {x : ℕ × Tile ℕ} (hx : x ∈ held h.startAddr bs) :
    ∃ n, labelAt h.startAddr bs x.1 = some n ∧ x.2.label = some n := by
  obtain ⟨hplace, hlabel⟩ := List.mem_filter.mp hx
  obtain ⟨n, hn⟩ := Option.isSome_iff_exists.mp hlabel
  obtain ⟨xs, ys, rfl, hp⟩ := exists_append_of_mem_place hplace
  refine ⟨n, ?_, hn⟩
  rw [hp, labelAt_middle fun c hc => hb.pos hk c (by simp [hc])]
  exact hn

theorem held_after_alloc (hk : k ≤ 30) (hs : Shape k s.heap bs fl) {bs₁ : List (Tile ℕ)} {fl₁ : List ℕ}
    (hs₁ : Shape k s'.heap bs₁ fl₁) (hstart : s'.heap.startAddr = s.heap.startAddr) {req : ℕ}
    (hp : labelAt s.heap.startAddr bs p = none)
    (hlabels : labelAt s.heap.startAddr bs₁ = Function.update (labelAt s.heap.startAddr bs) p (some req))
    {x : ℕ × Tile ℕ} (hx : x ∈ held s.heap.startAddr bs) :
    ∃ b', (x.1, b') ∈ held s'.heap.startAddr bs₁ ∧ x.1 + b'.len = s'.heap.next x.1 ∧ x.1 ≠ p := by
  obtain ⟨i, hi, -⟩ := labelAt_of_mem_held hk hs.blocks hx
  have hxp : x.1 ≠ p := by
    intro he
    rw [he, hp] at hi
    cases hi
  have hlabel : labelAt s.heap.startAddr bs₁ x.1 = some i := by
    rw [hlabels, Function.update_of_ne hxp]
    exact hi
  obtain ⟨b', hb', -⟩ := mem_held_of_labelAt hlabel
  rw [← hstart] at hb'
  exact ⟨b', hb', (hs₁.blocks.next_place (List.mem_filter.mp hb').1).symm, hxp⟩

theorem move_data (hk : k ≤ 30) (hs : Shape k s.heap (xs ++ b :: ys) fl) (hc : Counted s.heap) (hout : HeaderOutside s.heap)
    {m n req r : ℕ} (hb : b.label = some m) (hn : n = b.len - memheapSize k) (hle : n ≤ req)
    (hreq : req + (2 ^ k - 1) < 2 ^ 32)
    (hrun : ((s.rtMemheapAlloc k req).bind fun x => if x.1 ≠ 0 then
      ((x.2.rtMemcpy x.1 (s.heap.startAddr + total xs + memheapSize k) n).rtMemheapFree k
        (s.heap.startAddr + total xs + memheapSize k)).map fun s => (x.1, s) else some x) = some (r, s')) :
    (r = 0 → s'.mem = s.mem) ∧ (r ≠ 0 →
      (∀ i, i < n → s'.mem (r + i) = s.mem (s.heap.startAddr + total xs + memheapSize k + i)) ∧
      ∀ x ∈ held s.heap.startAddr (xs ++ b :: ys), x.1 ≠ s.heap.startAddr + total xs → Spares k s s' x.1) := by
  have hH := (memheapSize_spec hk).1
  have hblocks := hs.blocks
  have hxs : ∀ c ∈ xs, 0 < c.len := fun c hc => hblocks.pos hk c (by simp [hc])
  have hmem : (s.heap.startAddr + total xs, b) ∈ place s.heap.startAddr (xs ++ b :: ys) := by simp [place]
  have hown : (s.heap.startAddr + total xs, b) ∈ held s.heap.startAddr (xs ++ b :: ys) :=
    List.mem_filter.mpr ⟨hmem, by rw [hb]; rfl⟩
  obtain ⟨⟨r₁, s₁⟩, halloc, hrest⟩ := Option.bind_eq_some_iff.mp hrun
  obtain ⟨hnone, hspares⟩ := rtMemheapAlloc_data hk hs hout halloc
  have hheap := s.rtMemheapAlloc_heap (k := k) req
  rw [halloc, Option.map_some] at hheap
  obtain ⟨r₂, h₁, halloc₁, hspec⟩ := rtMemheapAlloc_spec hk hs hc (le_requestSize hreq)
  cases hheap.trans halloc₁
  simp only at hrest
  split at hrest
  · rename_i hne
    obtain ⟨s₂, hfree, hpair⟩ := Option.map_eq_some_iff.mp hrest
    cases hpair
    refine ⟨fun hnull => absurd hnull hne, fun _ => ?_⟩
    obtain ⟨hnull, -⟩ | ⟨p, rfl, -, hp, hstart, bs₁, fl₁, hs₁, hc₁, hlabels⟩ := hspec
    · exact absurd hnull hne
    · have hout₁ := hout.of_region (rtMemheapAlloc_region halloc₁)
      -- the tiles in use of `s` and the new one are those of `s₁`
      have hkeep : ∀ x ∈ held s.heap.startAddr (xs ++ b :: ys), ∃ b', (x.1, b') ∈ held s₁.heap.startAddr bs₁ ∧
          x.1 + b'.len = s₁.heap.next x.1 ∧ x.1 ≠ p := fun x hx => held_after_alloc hk hs hs₁ hstart hp hlabels hx
      obtain ⟨b₁, hb₁, hlabel₁⟩ := mem_held_of_labelAt (show labelAt s.heap.startAddr bs₁ p = some req by
        rw [hlabels, Function.update_self])
      rw [← hstart] at hb₁
      have hroom : memheapSize k + max req memheapMinialloc ≤ b₁.len := by
        obtain ⟨xs₁, ys₁, rfl, -⟩ := exists_append_of_mem_place (List.mem_filter.mp hb₁).1
        exact hs₁.roomy _ (by simp) req hlabel₁
      have hnext₁ := hs₁.blocks.next_place (List.mem_filter.mp hb₁).1
      -- the copy ends within the new block
      have hcopied : ∀ x ∈ held s.heap.startAddr (xs ++ b :: ys),
          Spares k s₁ (s₁.rtMemcpy (p + memheapSize k) (s.heap.startAddr + total xs + memheapSize k) n) x.1 := by
        intro x hx
        obtain ⟨b', hb', hnext, hxp⟩ := hkeep x hx
        have hapart := place_apart (List.mem_filter.mp hb').1 (List.mem_filter.mp hb₁).1 fun he => hxp (congrArg Prod.fst he)
        simp only at hapart
        refine ⟨rfl, fun y hy => SmallMem.rtMemcpy_of_out ?_⟩
        obtain ⟨hlo, hhi⟩ := hy
        omega
      obtain ⟨b₂, hb₂, -, hne₂⟩ := hkeep _ hown
      obtain ⟨xs₂, ys₂, hbs₂, hplace₂⟩ := exists_append_of_mem_place (List.mem_filter.mp hb₂).1
      simp only at hbs₂ hplace₂ hne₂
      rw [hbs₂] at hs₁ hb₁
      have hfreed : ∀ x ∈ held s₁.heap.startAddr bs₁, x.1 ≠ s.heap.startAddr + total xs →
          Spares k (s₁.rtMemcpy (p + memheapSize k) (s.heap.startAddr + total xs + memheapSize k) n) s' x.1 := by
        intro x hx hne'
        rw [hbs₂] at hx
        rw [hplace₂] at hne' hfree ⊢
        exact rtMemheapFree_data (s := s₁.rtMemcpy _ _ n) hk hs₁ hout₁ hfree hx hne'
      constructor
      · intro i hi
        have hnew := (hfreed (p, b₁) (hbs₂ ▸ hb₁) fun he => hne₂ he.symm).2
          (show p + memheapSize k + i ∈ dataRange k s₁.heap p from ⟨Nat.le_add_right _ _, by rw [hnext₁]; simp only; omega⟩)
        have hold := (hspares _ hown).2 (show s.heap.startAddr + total xs + memheapSize k + i ∈
          dataRange k s.heap (s.heap.startAddr + total xs) from
            ⟨Nat.le_add_right _ _, by rw [hblocks.next_place hmem]; simp only; omega⟩)
        rw [hnew, ← hold]
        show SmallMem.rtMemcpy _ _ _ _ _ = _
        rw [SmallMem.rtMemcpy, if_pos (by omega), Nat.add_sub_cancel_left]
      · intro x hx hne'
        obtain ⟨b', hb', -⟩ := hkeep x hx
        exact (hspares x hx).trans ((hcopied x hx).trans (hfreed (x.1, b') hb' hne'))
  · rename_i hnull
    cases hrest
    exact ⟨hnone, fun hne => absurd hne hnull⟩

theorem rtMemheapRealloc_data (hk : k ≤ 30) (hs : Shape k s.heap (xs ++ b :: ys) fl) (hc : Counted s.heap)
    (hout : HeaderOutside s.heap) {m newsize r : ℕ} (hb : b.label = some m) (hpos : newsize ≠ 0)
    (hsize : newsize + (2 ^ k - 1) < 2 ^ 32)
    (hfits : GrowsInPlace k s.heap (s.heap.startAddr + total xs + memheapSize k) newsize →
      requestSize k newsize + memheapMinialloc < 2 ^ 32)
    (hrun : s.rtMemheapRealloc k (s.heap.startAddr + total xs + memheapSize k) newsize = some (r, s')) :
    (r = 0 → s'.mem = s.mem) ∧ (r ≠ 0 → (∀ i, i < min (b.len - memheapSize k) newsize →
        s'.mem (r + i) = s.mem (s.heap.startAddr + total xs + memheapSize k + i)) ∧
      ∀ x ∈ held s.heap.startAddr (xs ++ b :: ys), x.1 ≠ s.heap.startAddr + total xs → Spares k s s' x.1) := by
  have hH := memheapSize_spec hk
  have hmini : memheapMinialloc = 12 := rfl
  have hblocks := hs.blocks
  obtain ⟨hlen, hend⟩ := hblocks.bounds
  have hbound := hblocks.bound
  have hle := le_requestSize hsize
  have hreq := requestSize_add_lt hk newsize
  have hnext : s.heap.next (s.heap.startAddr + total xs) = s.heap.startAddr + total xs + b.len := hblocks.next_eq
  have hp : sub 32 (s.heap.startAddr + total xs + memheapSize k) (memheapSize k) = s.heap.startAddr + total xs := by
    rw [sub_of_le (Nat.le_add_left _ _) (by omega), Nat.add_sub_cancel]
  rw [Pool.rtMemheapRealloc, if_neg hpos, if_neg (by omega)] at hrun
  simp only [GrowsInPlace, hp, hblocks.size_eq hk, hnext] at hfits hrun
  generalize requestSize k newsize = req at hfits hle hreq hrun
  by_cases hgrow : b.len - memheapSize k < req
  · rw [if_pos hgrow, if_pos (by omega)] at hrun
    by_cases hroom : ¬s.heap.isUsed (s.heap.startAddr + total xs + b.len) ∧ add 32 req memheapMinialloc <
        add 32 (memitemSize k s.heap (s.heap.startAddr + total xs + b.len)) (b.len - memheapSize k)
    · rw [if_pos hroom] at hrun
      obtain ⟨c, zs, rfl, hvacant⟩ := hblocks.next_vacant.mp hroom.1
      rw [total] at hend
      have hclen : memheapSize k ≤ c.len := hblocks.len c (by simp)
      have hplace : (s.heap.startAddr + total xs + b.len, c) ∈ place s.heap.startAddr (xs ++ b :: c :: zs) := by
        simp [place]
      have hcsize : memitemSize k s.heap (s.heap.startAddr + total xs + b.len) = c.len - memheapSize k := by
        rw [memitemSize, hblocks.next_place hplace, sub_of_le (Nat.le_add_right _ _) (by simp only; omega),
          Nat.add_sub_cancel_left, sub_of_le hclen (by omega)]
      have hlt := hroom.2
      rw [hcsize, add_of_lt (hfits ⟨hgrow, hroom⟩), add_of_lt (by omega)] at hlt
      obtain ⟨hown, hothers⟩ := @growItem_data k s xs zs b c fl hk hs hout hvacant (b.len - memheapSize k) req (by omega)
        (by omega)
      obtain ⟨rfl, rfl⟩ := Prod.mk.inj (Option.some.inj hrun)
      refine ⟨fun hnull => absurd hnull (by omega), fun _ => ⟨fun i hi => ?_, fun x hx hne => (hothers x hx hne).record⟩⟩
      refine hown ⟨Nat.le_add_right _ _, ?_⟩
      rw [hnext]
      omega
    · rw [if_neg hroom, if_pos hgrow] at hrun
      obtain ⟨hnull, hmoved⟩ := move_data hk hs hc hout hb rfl (by omega) hreq hrun
      exact ⟨hnull, fun hne => ⟨fun i hi => (hmoved hne).1 i (by omega), (hmoved hne).2⟩⟩
  · rw [if_neg hgrow] at hrun
    by_cases hkeep : b.len - memheapSize k ≤ add 32 (add 32 req (memheapSize k)) memheapMinialloc
    · rw [if_pos hkeep] at hrun
      cases hrun
      exact ⟨fun _ => rfl, fun _ => ⟨fun _ _ => rfl, fun x _ _ => Spares.refl s x.1⟩⟩
    · rw [if_neg hkeep] at hrun
      rw [add_add_of_lt (by omega)] at hkeep
      obtain ⟨hown, hothers⟩ := @shrinkItem_data k s xs ys b fl hk hs hout req (not_le.mp hkeep)
      obtain ⟨rfl, rfl⟩ := Prod.mk.inj (Option.some.inj hrun)
      refine ⟨fun hnull => absurd hnull (by omega), fun _ => ⟨fun i hi => ?_, fun x hx hne => (hothers x hx hne).record⟩⟩
      exact hown ⟨Nat.le_add_right _ _, by omega⟩

end RtThread.Memory.MemHeap
