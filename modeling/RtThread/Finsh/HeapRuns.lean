import Mathlib
import RtThread.Finsh.HeapCollect
import RtThread.Lib.Transition

/-!
# FinSH: runs of the heap

Strings are allocated and freed, data is written to them, and variables come and go. The heap stays whole as long as no
size is so large that the sum with a header wraps.
-/

namespace RtThread.Finsh.Heap

open RtThread.Lib.Bytes RtThread.Lib.Word RtThread.Lib.Chain RtThread.Lib.Tiling RtThread.Lib.Transition

inductive Act where
  | allocate (size : BitVec 32)
  | free (header : ℕ)
  | write (header i : ℕ) (value : BitVec 8)
  | assign (i : Fin finshVariableMax) (v : GlobalVariable)

/-- A pointer that is freed is that of an allocated block, and so is one that data is written to. -/
def step (s : FinshHeap) : Act → Option FinshHeap
  | .allocate size => (finshHeapAllocate s size.toNat).map Prod.snd
  | .free header => if header ∈ s.allocated then finshHeapFree s (getData header) else none
  | .write header i value =>
    if header ∈ s.allocated ∧ i < length s.mem header then
      some { s with mem := Function.update s.mem (getData header + i) value }
    else none
  | .assign i v => some { s with globalVariable := Function.update s.globalVariable i v }

/-- The aligned size and a header do not wrap. -/
def Act.Fits : Act → Prop
  | .allocate size => heapAlignSize size.toNat + headerSize < 2 ^ 32
  | _ => True

instance : (act : Act) → Decidable act.Fits
  | .allocate _ => inferInstanceAs (Decidable (_ < _))
  | .free _ => inferInstanceAs (Decidable True)
  | .write _ _ _ => inferInstanceAs (Decidable True)
  | .assign _ _ => inferInstanceAs (Decidable True)

structure Sound (heap : ℕ) (s : FinshHeap) (fl al : List ℕ) : Prop where
  free : Linked (link s.mem) (pointer s.freeList) fl
  allocated : Linked (link s.mem) (pointer s.allocateList) al
  free_increasing : fl.Pairwise (· < ·)
  allocated_increasing : al.Pairwise (· < ·)
  nodup : (fl ++ al).Nodup
  tiles : ∀ x, heap ≤ x ∧ x < heap + finshHeapMax ↔ ∃! a, a ∈ fl ++ al ∧ x ∈ s.block a
  not_adjacent : ∀ a ∈ fl, ∀ c ∈ fl, a + headerSize + length s.mem a ≠ c

/-- The calls return, and NULL only without a free block that has room for the aligned size and a header. -/
structure Serves (s : FinshHeap) : Prop where
  allocates : ∀ size, (Act.allocate size).Fits → ∃ r s', finshHeapAllocate s size.toNat = some (r, s') ∧
    (r = 0 → ∀ a ∈ s'.free, length s'.mem a < heapAlignSize size.toNat + headerSize)
  frees : ∀ a ∈ s.allocated, ∃ s', finshHeapFree s (getData a) = some s'

variable {heap : ℕ} {s s' : FinshHeap} {bs : List Block} {b : Block} {a c : ℕ} {m : Mem}
  {gv : Fin finshVariableMax → GlobalVariable}

/-! ### What the blocks say -/

theorem Shape.tiles (hs : Shape heap s bs) (x : ℕ) : heap ≤ x ∧ x < heap + finshHeapMax ↔
    ∃! a, a ∈ vacant heap bs ++ occupied heap bs ∧ x ∈ s.block a := by
  constructor
  · rintro ⟨hle, hlt⟩
    rw [← hs.size] at hlt
    obtain ⟨y, hy, hx⟩ := exists_tile hle hlt
    refine ⟨y.1, ⟨mem_lists (List.mem_map_of_mem hy), by rwa [hs.block_eq (b := y.2) hy]⟩, ?_⟩
    rintro c ⟨hc, hxc⟩
    obtain ⟨d, hd⟩ := exists_place (mem_headers hc)
    rw [hs.block_eq hd] at hxc
    by_contra hne
    have hapart : c + d.len ≤ y.1 ∨ y.1 + y.2.len ≤ c := place_apart hd hy fun he => hne (congrArg Prod.fst he)
    have hx1 := hx.1
    have hx2 := hx.2
    have hc1 := hxc.1
    have hc2 := hxc.2
    omega
  · rintro ⟨c, ⟨hc, hxc⟩, -⟩
    obtain ⟨d, hd⟩ := exists_place (mem_headers hc)
    rw [hs.block_eq hd] at hxc
    have hbound := mem_place (q := c) (b := d) hd
    rw [hs.size] at hbound
    exact ⟨hbound.1.trans hxc.1, hxc.2.trans_le hbound.2⟩

theorem Whole.sound (hw : Whole heap s bs) : Sound heap s (vacant heap bs) (occupied heap bs) := by
  have hs := hw.shape
  refine ⟨hs.free, hs.allocated, vacant_sorted hs.room, occupied_sorted hs.room, ?_, hs.tiles,
    fun a ha c hc => hw.not_adjacent ha hc⟩
  rw [List.nodup_append]
  refine ⟨hs.vacant_nodup, hs.occupied_nodup, fun a ha c hc he => ?_⟩
  rw [he] at ha
  exact not_mem_occupied hs.room ha hc

theorem Whole.serves (hheap : Placed heap) (hw : Whole heap s bs) : Serves s := by
  refine ⟨fun size hfits => ?_, fun a ha => ?_⟩
  · obtain ⟨r, s', bs', hrun, hw', -, kept, -, ⟨a, rfl, hperm, -⟩ | ⟨-, -, -, -, hfull⟩⟩ :=
      allocate_spec hheap hw hfits
    · refine ⟨getData a, s', hrun, fun hnull => absurd hnull ?_⟩
      have hin : a ∈ occupied heap bs' := hperm.mem_iff.mpr List.mem_cons_self
      exact getData_ne_zero hheap hw'.shape (occupied_subset heap _ a hin)
    · refine ⟨r, s', hrun, fun _ => ?_⟩
      rw [hw'.shape.free_eq]
      exact hfull
  · rw [hw.shape.allocated_eq] at ha
    obtain ⟨s', -, hrun, -⟩ := free_spec hheap hw ha
    exact ⟨s', hrun⟩

/-! ### Every step -/

theorem init_whole (hheap : Placed heap) (m : Mem) (gv : Fin finshVariableMax → GlobalVariable) :
    Whole heap (finshHeapInit heap m gv) [⟨finshHeapMax, none⟩] := by
  have hfits := hheap.fits
  have hA : Apart [heap] := by
    refine ⟨fun a ha c hc hne => ?_, fun a ha => ?_⟩
    · rw [List.mem_singleton.mp ha, List.mem_singleton.mp hc] at hne
      exact absurd rfl hne
    · rw [List.mem_singleton.mp ha, headerSize]
      rw [finshHeapMax] at hfits
      exact ⟨hheap.pos, by omega⟩
  have hin : heap ∈ [heap] := List.mem_cons_self
  have hlength : length (finshHeapInit heap m gv).mem heap = finshHeapMax - headerSize := by
    rw [finshHeapInit, length_setNext hA hin hin, length_setLength hA hin hin (by decide), Function.update_self]
  have hlink : link (finshHeapInit heap m gv).mem heap = none := by
    rw [finshHeapInit, link_setNext hA hin hin (by decide), Function.update_self]
    rfl
  refine ⟨⟨rfl, ?_, ?_, ?_, ⟨pointer_of_pos hheap.pos, hlink⟩, rfl, ⟨⟨finshHeapMax, none⟩, rfl, rfl⟩⟩,
    List.isChain_singleton _⟩
  · intro b hb
    rw [List.mem_singleton.mp hb]
    decide
  · intro b hb
    rw [List.mem_singleton.mp hb]
    decide
  · intro x hx
    rw [List.mem_singleton.mp hx, hlength]
    rfl

theorem data_whole {m' : Mem} (hheap : Placed heap) (hw : Whole heap s bs) (ha : a ∈ occupied heap bs)
    (h : ∀ x, x < getData a ∨ getData a + length s.mem a ≤ x → m' x = s.mem x) : Whole heap { s with mem := m' } bs := by
  have hs := hw.shape
  refine ⟨hs.of_relinked (relinked_of_eqOn fun c hc => ?_), hw.compact⟩
  obtain ⟨b, hb⟩ := exists_place (occupied_subset heap bs a ha)
  obtain ⟨d, hd⟩ := exists_place hc
  have hlen : length s.mem a + headerSize = b.len := hs.lengths _ hb
  have hdroom := hs.room d (mem_of_place hd)
  rw [hs.getData_eq hheap (occupied_subset heap bs a ha)] at h
  intro x hx
  obtain ⟨hle, hlt⟩ := hx
  refine h x ?_
  by_cases he : c = a
  · rw [he] at hlt
    exact Or.inl hlt
  · have hapart := place_disjoint hd hb he
    omega

theorem write_whole (hheap : Placed heap) (hw : Whole heap s bs) {i : ℕ} (ha : a ∈ occupied heap bs)
    (hi : i < length s.mem a) (v : BitVec 8) : Whole heap { s with mem := Function.update s.mem (getData a + i) v } bs := by
  refine data_whole hheap hw ha fun x hx => Function.update_of_ne ?_ _ _
  omega

theorem assign_whole (hw : Whole heap s bs) (gv : Fin finshVariableMax → GlobalVariable) :
    Whole heap { s with globalVariable := gv } bs := by
  obtain ⟨⟨hsize, hroom, haligned, hlengths, hfree, hallocated, hlast⟩, hcompact⟩ := hw
  exact ⟨⟨hsize, hroom, haligned, hlengths, hfree, hallocated, hlast⟩, hcompact⟩

theorem step_whole (hheap : Placed heap) {act : Act} (hw : Whole heap s bs) (hfits : act.Fits)
    (hstep : step s act = some s') : ∃ bs', Whole heap s' bs' := by
  cases act with
  | allocate size =>
    obtain ⟨r, s1, bs', hrun, hw', -⟩ := allocate_spec hheap hw hfits
    rw [step, hrun] at hstep
    cases hstep
    exact ⟨bs', hw'⟩
  | free header =>
    rw [step] at hstep
    split at hstep
    · rename_i hin
      rw [hw.shape.allocated_eq] at hin
      obtain ⟨s1, bs', hrun, hw', -⟩ := free_spec hheap hw hin
      rw [hrun] at hstep
      cases hstep
      exact ⟨bs', hw'⟩
    · cases hstep
  | write header i v =>
    rw [step] at hstep
    split at hstep
    · rename_i hin
      rw [hw.shape.allocated_eq] at hin
      cases hstep
      exact ⟨bs, write_whole hheap hw hin.1 hin.2 v⟩
    · cases hstep
  | assign i v =>
    cases hstep
    exact ⟨bs, assign_whole hw _⟩

theorem run_whole (hheap : Placed heap) {acts : List Act}
    (hfits : AllSteps step (fun _ act => act.Fits) (finshHeapInit heap m gv) acts)
    (hrun : exec step (finshHeapInit heap m gv) acts = some s) : ∃ bs, Whole heap s bs := by
  refine exec_inv_of_allSteps (fun s => ∃ bs, Whole heap s bs) (fun _ act => act.Fits) ?_
    ⟨_, init_whole hheap m gv⟩ hfits hrun
  rintro s act s' ⟨bs, hw⟩ hfits hstep
  exact step_whole hheap hw hfits hstep

/-- The heap stays whole as long as no sum of a size and a header wraps. -/
theorem heap_whole_while_sizes_fit (hheap : Placed heap) {acts : List Act}
    (hfits : AllSteps step (fun _ act => act.Fits) (finshHeapInit heap m gv) acts)
    (hrun : exec step (finshHeapInit heap m gv) acts = some s) : (∃ fl al, Sound heap s fl al) ∧ Serves s := by
  obtain ⟨bs, hw⟩ := run_whole hheap hfits hrun
  exact ⟨⟨_, _, hw.sound⟩, hw.serves hheap⟩

/-- The memory and the variables before `finsh_heap_init`. -/
def cleared : FinshHeap := finshHeapInit 4096 (fun _ => 0) fun _ => ⟨.unknown, 0⟩

theorem heap_whole_after_free : ∃ s, exec step cleared [.allocate 5, .free 4096] = some s ∧
    (∃ fl al, Sound 4096 s fl al) ∧ Serves s := by
  have hsome : (exec step cleared [.allocate 5, .free 4096]).isSome = true := by decide
  obtain ⟨s, hrun⟩ := Option.isSome_iff_exists.mp hsome
  have hfits : AllSteps step (fun _ act => act.Fits) cleared [.allocate 5, .free 4096] :=
    fun _ _ => ⟨by decide, fun _ _ => ⟨trivial, trivial⟩⟩
  exact ⟨s, hrun, heap_whole_while_sizes_fit ⟨by decide, by decide, by decide⟩ hfits hrun⟩

/-! ### Sizes that wrap -/

/-- A size that wraps finds room in an empty heap, and the block is free and allocated. -/
theorem large_size_overlaps : ∃ s, exec step cleared [.allocate 0xFFFFFFF8] = some s ∧ ∀ fl al, ¬Sound 4096 s fl al := by
  have hlists : (exec step cleared [.allocate 0xFFFFFFF8]).map (fun s => (s.freeList, s.allocateList)) =
      some (4096, 4096) := by
    decide
  obtain ⟨s, hrun, hs⟩ := Option.map_eq_some_iff.mp hlists
  obtain ⟨hfree, hallocated⟩ := Prod.mk.inj hs
  refine ⟨s, hrun, fun fl al h => ?_⟩
  have hfl := h.free
  have hal := h.allocated
  rw [hfree, pointer_of_pos (by decide)] at hfl
  rw [hallocated, pointer_of_pos (by decide)] at hal
  obtain ⟨l, rfl, -⟩ := Linked.exists_cons hfl
  obtain ⟨l', rfl, -⟩ := Linked.exists_cons hal
  exact (List.nodup_append.mp h.nodup).2.2 4096 List.mem_cons_self 4096 List.mem_cons_self rfl

end RtThread.Finsh.Heap
