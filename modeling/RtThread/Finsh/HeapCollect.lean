import Mathlib
import RtThread.Finsh.HeapTake

/-!
# FinSH: the collection and the allocation (`finsh_heap.c:54-142`)
-/

namespace RtThread.Finsh.Heap

open RtThread.Lib.Bytes RtThread.Lib.Word RtThread.Lib.Chain RtThread.Lib.Tiling

variable {heap : ℕ} {s s' : FinshHeap} {bs : List Block} {a size : ℕ}

theorem isHeld_congr (h : s'.globalVariable = s.globalVariable) (data : ℕ) : s'.isHeld data = s.isHeld data := by
  rw [FinshHeap.isHeld, FinshHeap.isHeld, h]

/-- A collection keeps the block. -/
def FinshHeap.isKept (s : FinshHeap) (a : ℕ) : Bool := s.isHeld (getData a)

theorem gcLoop_spec (hheap : Placed heap) {seen rest : List ℕ} {header k : ℕ} (hw : Whole heap s bs)
    (hocc : occupied heap bs = seen ++ rest) (hheader : pointer header = rest.head?) (hk : rest.length < k) :
    ∃ s' bs', gcLoop k header s = some s' ∧ Whole heap s' bs' ∧
      occupied heap bs' = seen ++ rest.filter s.isKept ∧
        (∀ c ∈ occupied heap bs', length s'.mem c = length s.mem c) ∧ s'.globalVariable = s.globalVariable := by
  induction rest generalizing s bs seen header k with
  | nil =>
    obtain ⟨k, rfl⟩ := Nat.exists_eq_succ_of_ne_zero (Nat.ne_of_gt hk)
    refine ⟨s, bs, ?_, hw, hocc, fun _ _ => rfl, rfl⟩
    rw [gcLoop, if_pos (eq_zero_of_pointer hheader)]
  | cons a rest ih =>
    obtain ⟨k, rfl⟩ := Nat.exists_eq_succ_of_ne_zero (Nat.ne_zero_of_lt hk)
    obtain ⟨rfl, hne⟩ := eq_of_pointer hheader
    have hchain := hw.shape.allocated
    have hnodup := hw.shape.occupied_nodup
    rw [hocc] at hchain hnodup
    have hnext : pointer (next s.mem header) = rest.head? := hchain.next_middle
    have hk' := Nat.lt_of_succ_lt_succ hk
    rw [gcLoop, if_neg hne]
    cases hheld : s.isHeld (getData header) with
    | true =>
      have hocc1 : occupied heap bs = seen ++ [header] ++ rest := by rw [hocc, List.append_assoc, List.singleton_append]
      obtain ⟨s', bs', hrun, hw', hocc', hlengths, hgv⟩ := ih hw hocc1 hnext hk'
      refine ⟨s', bs', hrun, hw', ?_, hlengths, hgv⟩
      have hkeep : s.isKept header = true := hheld
      rw [hocc', List.append_assoc, List.singleton_append, List.filter_cons_of_pos hkeep]
    | false =>
      have hin : header ∈ occupied heap bs := by
        rw [hocc]
        exact List.mem_append_right _ List.mem_cons_self
      obtain ⟨s1, bs1, hfree, hw1, hocc1, hlengths1, hgv1⟩ := free_spec hheap hw hin
      have hnot : header ∉ seen :=
        fun hmem => (List.nodup_append.mp hnodup).2.2 header hmem header List.mem_cons_self rfl
      rw [hocc, List.erase_append_right _ hnot, List.erase_cons_head] at hocc1
      obtain ⟨s', bs', hrun, hw', hocc', hlengths, hgv⟩ := ih hw1 hocc1 hnext hk'
      refine ⟨s', bs', ?_, hw', ?_, fun c hc => (hlengths c hc).trans (hlengths1 c ?_), hgv.trans hgv1⟩
      · rw [hfree]
        exact hrun
      · have hsame : s1.isKept = s.isKept := funext fun a => isHeld_congr hgv1 (getData a)
        have hdrop : ¬s.isKept header = true := Bool.eq_false_iff.mp hheld
        rw [hocc', hsame, List.filter_cons_of_neg hdrop]
      · rw [hocc'] at hc
        rw [hocc1]
        rcases List.mem_append.mp hc with hleft | hright
        · exact List.mem_append_left _ hleft
        · exact List.mem_append_right _ (List.mem_of_mem_filter hright)

theorem gc_spec (hheap : Placed heap) (hw : Whole heap s bs) : ∃ s' bs', finshHeapGc s = some s' ∧ Whole heap s' bs' ∧
    occupied heap bs' = (occupied heap bs).filter s.isKept ∧
      (∀ c ∈ occupied heap bs', length s'.mem c = length s.mem c) ∧ s'.globalVariable = s.globalVariable := by
  have hchain := hw.shape.allocated
  have hhead : pointer s.allocateList = (occupied heap bs).head? := by
    cases hocc : occupied heap bs with
    | nil =>
      rw [hocc] at hchain
      exact hchain
    | cons a l =>
      rw [hocc] at hchain
      exact hchain.1
  have hocc : occupied heap bs = [] ++ occupied heap bs := rfl
  exact gcLoop_spec hheap hw hocc hhead hw.shape.occupied_fuel

theorem find_cases (hs : Shape heap s bs) (q : ℕ → Bool) :
    (∃ a ∈ vacant heap bs, q a = true ∧ findBlock s.mem q fuel s.freeList = some a) ∨
      (∀ a ∈ vacant heap bs, q a = false) ∧ findBlock s.mem q fuel s.freeList = some 0 := by
  rw [findBlock_eq hs.free hs.vacant_fuel]
  cases hfind : (vacant heap bs).find? q with
  | none =>
    refine Or.inr ⟨fun a ha => ?_, rfl⟩
    exact Bool.eq_false_iff.mpr (List.find?_eq_none.mp hfind a ha)
  | some a => exact Or.inl ⟨a, List.mem_of_find?_eq_some hfind, List.find?_some hfind, rfl⟩

theorem vacant_ne_zero (hheap : Placed heap) (hs : Shape heap s bs) (ha : a ∈ vacant heap bs) : a ≠ 0 :=
  Nat.ne_of_gt ((hs.apart hheap).bound a (vacant_subset heap bs a ha)).1

/-- A free block is large enough for `p` bytes without a collection. -/
def FinshHeap.HasRoom (s : FinshHeap) (p : ℕ) : Prop := ∃ a ∈ s.free, p + headerSize < length s.mem a

/-- `n` bytes of the heap are outside of the blocks that variables hold. -/
def FinshHeap.HasGap (heap : ℕ) (s : FinshHeap) (n : ℕ) : Prop :=
  ∃ x, heap ≤ x ∧ x + n ≤ heap + finshHeapMax ∧
    ∀ a ∈ s.allocated, s.isKept a = true → x + n ≤ a ∨ a + headerSize + length s.mem a ≤ x

/-- Free blocks are not adjacent, so that all of a gap between the allocated ones is in one of them. -/
theorem room_of_gap (hw : Whole heap s bs) {x n : ℕ} (hn : 0 < n) (hle : heap ≤ x) (hlt : x + n ≤ heap + finshHeapMax)
    (hgap : ∀ a ∈ occupied heap bs, x + n ≤ a ∨ a + headerSize + length s.mem a ≤ x) :
    ∃ a ∈ vacant heap bs, n ≤ length s.mem a + headerSize := by
  have hs := hw.shape
  have hsize := hs.size
  -- a tile that begins or contains an address of the gap is free
  have hvacant : ∀ y ∈ place heap bs, ∀ z ∈ Set.Ico y.1 (y.1 + y.2.len), x ≤ z → z < x + n → y.1 ∈ vacant heap bs := by
    intro y hy z hz hxz hzx
    refine (List.mem_append.mp (mem_lists (List.mem_map_of_mem hy))).resolve_right fun hocc => ?_
    have hout := hgap y.1 hocc
    have hlen := hs.lengths y hy
    obtain ⟨hz1, hz2⟩ := hz
    omega
  rw [← hsize] at hlt
  obtain ⟨y, hy, hx⟩ := exists_tile hle (show x < heap + total bs by omega)
  have hlen := hs.lengths y hy
  have hyvacant := hvacant y hy x hx le_rfl (by omega)
  obtain ⟨hyx, hxy⟩ := hx
  refine ⟨y.1, hyvacant, ?_⟩
  rw [hlen]
  by_contra hshort
  have hend : heap ≤ y.1 + y.2.len ∧ y.1 + y.2.len < heap + total bs := by omega
  obtain ⟨w, hwplace, hwin⟩ := exists_tile hend.1 hend.2
  have hwvacant := hvacant w hwplace _ hwin (by omega) (by omega)
  obtain ⟨hw1, hw2⟩ := hwin
  have hne : w ≠ y := by
    rintro rfl
    omega
  have hapart := place_apart hwplace hy hne
  refine hw.not_adjacent hyvacant hwvacant ?_
  omega

theorem gap_of_room (hs : Shape heap s bs) {n : ℕ} (ha : a ∈ vacant heap bs) (hn : n ≤ length s.mem a + headerSize) :
    heap ≤ a ∧ a + n ≤ heap + finshHeapMax ∧
      ∀ c ∈ occupied heap bs, a + n ≤ c ∨ c + headerSize + length s.mem c ≤ a := by
  obtain ⟨b, hb⟩ := exists_place (vacant_subset heap bs a ha)
  have hblen : length s.mem a + headerSize = b.len := hs.lengths _ hb
  have hbound := mem_place (q := a) (b := b) hb
  have hsize := hs.size
  refine ⟨hbound.1, by omega, fun c hc => ?_⟩
  obtain ⟨d, hd⟩ := exists_place (occupied_subset heap bs c hc)
  have hdlen : length s.mem c + headerSize = d.len := hs.lengths _ hd
  have hne : a ≠ c := by
    rintro rfl
    exact not_mem_occupied hs.room ha hc
  have hapart := place_disjoint hb hd hne
  omega

theorem gap_iff {s1 : FinshHeap} {bs1 : List Block} (hs : Shape heap s bs) (hw1 : Whole heap s1 bs1)
    (hocc : occupied heap bs1 = (occupied heap bs).filter s.isKept)
    (hlengths : ∀ c ∈ occupied heap bs1, length s1.mem c = length s.mem c) {n : ℕ} (hn : 0 < n) :
    s.HasGap heap n ↔ ∃ a ∈ vacant heap bs1, n ≤ length s1.mem a + headerSize := by
  have hmem : ∀ a, a ∈ occupied heap bs1 ↔ a ∈ occupied heap bs ∧ s.isKept a = true := by
    intro a
    rw [hocc]
    exact List.mem_filter
  rw [FinshHeap.HasGap, hs.allocated_eq]
  constructor
  · rintro ⟨x, hle, hlt, hgap⟩
    refine room_of_gap hw1 hn hle hlt fun a ha => ?_
    rw [hlengths a ha]
    exact hgap a ((hmem a).mp ha).1 ((hmem a).mp ha).2
  · rintro ⟨a, ha, hroom⟩
    obtain ⟨hle, hlt, hgap⟩ := gap_of_room hw1.shape ha hroom
    refine ⟨a, hle, hlt, fun c hc hkept => ?_⟩
    have hin := (hmem c).mpr ⟨hc, hkept⟩
    rw [← hlengths c hin]
    exact hgap c hin

theorem allocate_spec (hheap : Placed heap) (hw : Whole heap s bs) (hsize : heapAlignSize size + headerSize < 2 ^ 32) :
    ∃ r s' bs', finshHeapAllocate s size = some (r, s') ∧ Whole heap s' bs' ∧ s'.globalVariable = s.globalVariable ∧
      ∃ kept, (s.HasRoom (heapAlignSize size) ∧ kept = occupied heap bs ∨ ¬s.HasRoom (heapAlignSize size) ∧
          kept = (occupied heap bs).filter s.isKept) ∧
        ((∃ a, r = getData a ∧ (occupied heap bs').Perm (a :: kept) ∧ length s'.mem a = heapAlignSize size ∧
            (s.HasRoom (heapAlignSize size) ∨ s.HasGap heap (heapAlignSize size + 2 * headerSize))) ∨
          r = 0 ∧ ¬s.HasRoom (heapAlignSize size) ∧ ¬s.HasGap heap (heapAlignSize size + 2 * headerSize) ∧
            occupied heap bs' = kept ∧ ∀ a ∈ vacant heap bs', length s'.mem a < heapAlignSize size + headerSize) := by
  have hadd : add 32 (heapAlignSize size) headerSize = heapAlignSize size + headerSize := add_of_lt hsize
  have hdvd : 4 ∣ heapAlignSize size := dvd_alignUp 2 size
  rw [finshHeapAllocate, hadd]
  rcases find_cases hw.shape fun header => ¬length s.mem header ≤ heapAlignSize size + headerSize with
    ⟨a, ha, hq, hfind⟩ | ⟨hnone, hfind⟩
  · have hlt : heapAlignSize size + headerSize < length s.mem a := Nat.lt_of_not_le (of_decide_eq_true hq)
    have hroom : s.HasRoom (heapAlignSize size) := ⟨a, hw.shape.free_eq.symm ▸ ha, hlt⟩
    obtain ⟨s', bs', htake, hw', hperm, hlen, hgv⟩ := take_spec hheap hw ha hlt.le hdvd
    refine ⟨getData a, s', bs', ?_, hw', hgv, occupied heap bs, Or.inl ⟨hroom, rfl⟩,
      Or.inl ⟨a, rfl, hperm, hlen, Or.inl hroom⟩⟩
    rw [hfind, Option.bind_eq_bind, Option.bind_some, if_pos (vacant_ne_zero hheap hw.shape ha)]
    exact htake
  · have hfull : ¬s.HasRoom (heapAlignSize size) := by
      rintro ⟨a, ha, hlt⟩
      rw [hw.shape.free_eq] at ha
      exact absurd hlt (not_lt.mpr (not_not.mp (of_decide_eq_false (hnone a ha))))
    obtain ⟨s1, bs1, hgc, hw1, hocc1, hlengths1, hgv1⟩ := gc_spec hheap hw
    have hgap : s.HasGap heap (heapAlignSize size + 2 * headerSize) ↔
        ∃ a ∈ vacant heap bs1, heapAlignSize size + 2 * headerSize ≤ length s1.mem a + headerSize :=
      gap_iff hw.shape hw1 hocc1 hlengths1 (Nat.succ_pos _)
    rw [hfind, Option.bind_eq_bind, Option.bind_some, if_neg (not_not.mpr rfl), hgc]
    simp only [Option.bind_eq_bind, Option.bind_some]
    rcases find_cases hw1.shape fun header => ¬length s1.mem header < heapAlignSize size + headerSize with
      ⟨a, ha, hq, hfind1⟩ | ⟨hnone1, hfind1⟩
    · have hle : heapAlignSize size + headerSize ≤ length s1.mem a := Nat.le_of_not_lt (of_decide_eq_true hq)
      obtain ⟨s', bs', htake, hw', hperm, hlen, hgv⟩ := take_spec hheap hw1 ha hle hdvd
      refine ⟨getData a, s', bs', ?_, hw', hgv.trans hgv1, occupied heap bs1, Or.inr ⟨hfull, hocc1⟩,
        Or.inl ⟨a, rfl, hperm, hlen, Or.inr (hgap.mpr ⟨a, ha, by omega⟩)⟩⟩
      rw [hfind1, Option.bind_some, if_neg (vacant_ne_zero hheap hw1.shape ha)]
      exact htake
    · have hshort : ∀ a ∈ vacant heap bs1, length s1.mem a < heapAlignSize size + headerSize :=
        fun a ha => not_not.mp (of_decide_eq_false (hnone1 a ha))
      have hnogap : ¬s.HasGap heap (heapAlignSize size + 2 * headerSize) := by
        intro h
        obtain ⟨a, ha, hle⟩ := hgap.mp h
        have hlt := hshort a ha
        omega
      refine ⟨0, s1, bs1, ?_, hw1, hgv1, occupied heap bs1, Or.inr ⟨hfull, hocc1⟩,
        Or.inr ⟨rfl, hfull, hnogap, rfl, hshort⟩⟩
      rw [hfind1, Option.bind_some, if_pos rfl]

end RtThread.Finsh.Heap
