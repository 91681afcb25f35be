import Mathlib
import RtThread.Finsh.HeapBlocks
import RtThread.Lib.Tiling

/-!
# FinSH: the blocks of the heap

The blocks lie one after the other, each with its header; those with a label are allocated. The last one is always free,
so that no block is put at the end of the free list.
-/

namespace RtThread.Finsh.Heap

open RtThread.Lib.Bytes RtThread.Lib.Word RtThread.Lib.Chain RtThread.Lib.Tiling

abbrev Block := Tile Unit

/-- The array `finsh_heap`. -/
structure Placed (heap : ℕ) : Prop where
  pos : 0 < heap
  aligned : 4 ∣ heap
  fits : heap + finshHeapMax < 2 ^ 32

def headers (heap : ℕ) (bs : List Block) : List ℕ := (place heap bs).map Prod.fst

def occupied (heap : ℕ) (bs : List Block) : List ℕ := (held heap bs).map Prod.fst

structure Shape (heap : ℕ) (s : FinshHeap) (bs : List Block) : Prop where
  size : total bs = finshHeapMax
  room : ∀ b ∈ bs, headerSize ≤ b.len
  aligned : ∀ b ∈ bs, 4 ∣ b.len
  lengths : ∀ x ∈ place heap bs, length s.mem x.1 + headerSize = x.2.len
  free : Linked (link s.mem) (pointer s.freeList) (vacant heap bs)
  allocated : Linked (link s.mem) (pointer s.allocateList) (occupied heap bs)
  last : ∃ b ∈ bs.getLast?, b.label = none

/-- No two free blocks are neighbours. -/
structure Whole (heap : ℕ) (s : FinshHeap) (bs : List Block) : Prop where
  shape : Shape heap s bs
  compact : Compact bs

variable {heap : ℕ} {s : FinshHeap} {bs xs ys : List Block} {b : Block} {a c p : ℕ}

theorem occupied_append (heap : ℕ) (xs ys : List Block) :
    occupied heap (xs ++ ys) = occupied heap xs ++ occupied (heap + total xs) ys := by
  rw [occupied, held_append, List.map_append]
  rfl

theorem occupied_cons_of_some {u : Unit} (heap : ℕ) (ys : List Block) (h : b.label = some u) :
    occupied heap (b :: ys) = heap :: occupied (heap + b.len) ys := by
  rw [occupied, held_cons_of_some ys h]
  rfl

theorem occupied_cons_of_none (heap : ℕ) (ys : List Block) (h : b.label = none) :
    occupied heap (b :: ys) = occupied (heap + b.len) ys := by
  rw [occupied, held_cons_of_none ys h]
  rfl

theorem headers_middle (heap : ℕ) (xs : List Block) (b : Block) (ys : List Block) : headers heap (xs ++ b :: ys) =
    headers heap xs ++ (heap + total xs) :: headers (heap + total xs + b.len) ys := by
  rw [headers, place_middle, List.map_append]
  rfl

theorem vacant_subset (heap : ℕ) (bs : List Block) : ∀ a ∈ vacant heap bs, a ∈ headers heap bs :=
  fun _ ha => vacant_subset_place heap bs ha

theorem occupied_subset (heap : ℕ) (bs : List Block) : ∀ a ∈ occupied heap bs, a ∈ headers heap bs :=
  fun _ ha => List.map_subset _ (List.filter_subset_self _) ha

theorem mem_of_place {x : ℕ × Block} (hx : x ∈ place heap bs) : x.2 ∈ bs := by
  have hmem : x.2 ∈ (place heap bs).map Prod.snd := List.mem_map_of_mem hx
  rwa [map_snd_place] at hmem

theorem headers_sorted (hroom : ∀ b ∈ bs, headerSize ≤ b.len) : (headers heap bs).Pairwise (· < ·) := by
  have hpair := place_pairwise heap bs
  rw [headers, List.pairwise_map]
  refine hpair.imp_of_mem fun {x y} hx _ hxy => ?_
  have hlen := hroom x.2 (mem_of_place hx)
  rw [headerSize] at hlen
  omega

theorem vacant_sorted (hroom : ∀ b ∈ bs, headerSize ≤ b.len) : (vacant heap bs).Pairwise (· < ·) :=
  (headers_sorted hroom).sublist (List.filter_sublist.map Prod.fst)

theorem occupied_sorted (hroom : ∀ b ∈ bs, headerSize ≤ b.len) : (occupied heap bs).Pairwise (· < ·) :=
  (headers_sorted hroom).sublist (List.filter_sublist.map Prod.fst)

theorem headers_bound (hroom : ∀ b ∈ bs, headerSize ≤ b.len) (ha : a ∈ headers heap bs) :
    heap ≤ a ∧ a + headerSize ≤ heap + total bs := by
  obtain ⟨x, hx, rfl⟩ := List.mem_map.mp ha
  have hlen := hroom x.2 (mem_of_place hx)
  have hmem := mem_place (q := x.1) (b := x.2) hx
  omega

theorem headers_apart (hp : Placed heap) (htotal : total bs = finshHeapMax) (hroom : ∀ b ∈ bs, headerSize ≤ b.len) :
    Apart (headers heap bs) := by
  refine ⟨fun a ha c hc hne => ?_, fun a ha => ?_⟩
  · obtain ⟨x, hx, rfl⟩ := List.mem_map.mp ha
    obtain ⟨y, hy, rfl⟩ := List.mem_map.mp hc
    have hlenx := hroom x.2 (mem_of_place hx)
    have hleny := hroom y.2 (mem_of_place hy)
    have hapart := place_apart hx hy fun he => hne (congrArg Prod.fst he)
    omega
  · have hbound := headers_bound hroom ha
    have hpos := hp.pos
    have hfits := hp.fits
    omega

theorem not_mem_occupied (hroom : ∀ b ∈ bs, headerSize ≤ b.len) (ha : a ∈ vacant heap bs) : a ∉ occupied heap bs := by
  intro hocc
  obtain ⟨x, hx, rfl⟩ := List.mem_map.mp ha
  obtain ⟨y, hy, he⟩ := List.mem_map.mp hocc
  obtain ⟨hxp, hxl⟩ := List.mem_filter.mp hx
  obtain ⟨hyp, hyl⟩ := List.mem_filter.mp hy
  have hpos : ∀ b ∈ bs, 0 < b.len := fun b hb => Nat.lt_of_lt_of_le (by decide) (hroom b hb)
  obtain rfl := place_unique hpos hyp hxp he
  rw [Option.isNone_iff_eq_none.mp hxl] at hyl
  cases hyl

theorem exists_of_occupied (h : a ∈ occupied heap bs) :
    ∃ xs b ys, bs = xs ++ b :: ys ∧ a = heap + total xs ∧ b.label = some () := by
  obtain ⟨x, hx, rfl⟩ := List.mem_map.mp h
  obtain ⟨hplace, hlabel⟩ := List.mem_filter.mp hx
  obtain ⟨xs, ys, hbs, ha⟩ := exists_append_of_mem_place (q := x.1) (b := x.2) hplace
  obtain ⟨u, hu⟩ := Option.isSome_iff_exists.mp hlabel
  exact ⟨xs, x.2, ys, hbs, ha, hu⟩

theorem exists_place (ha : a ∈ headers heap bs) : ∃ b, (a, b) ∈ place heap bs := by
  obtain ⟨x, hmem, rfl⟩ := List.mem_map.mp ha
  exact ⟨x.2, hmem⟩

theorem mem_lists (ha : a ∈ headers heap bs) : a ∈ vacant heap bs ++ occupied heap bs := by
  obtain ⟨x, hx, rfl⟩ := List.mem_map.mp ha
  cases hlabel : x.2.label with
  | none =>
    have hnone : x.2.label.isNone = true := Option.isNone_iff_eq_none.mpr hlabel
    exact List.mem_append_left _ (List.mem_map_of_mem (List.mem_filter.mpr ⟨hx, hnone⟩))
  | some u =>
    have hsome : x.2.label.isSome = true := Option.isSome_iff_exists.mpr ⟨u, hlabel⟩
    exact List.mem_append_right _ (List.mem_map_of_mem (List.mem_filter.mpr ⟨hx, hsome⟩))

theorem mem_headers (ha : a ∈ vacant heap bs ++ occupied heap bs) : a ∈ headers heap bs :=
  (List.mem_append.mp ha).elim (vacant_subset heap bs a) (occupied_subset heap bs a)

theorem length_lt_fuel (htotal : total bs = finshHeapMax) (hroom : ∀ b ∈ bs, headerSize ≤ b.len) {l : List ℕ}
    (hl : l.length ≤ bs.length) : l.length < fuel := by
  have hsum : headerSize * bs.length ≤ total bs := by
    clear htotal hl
    induction bs with
    | nil => exact Nat.le_refl 0
    | cons c cs ih =>
      have hc := hroom c List.mem_cons_self
      have hcs := ih fun d hd => hroom d (List.mem_cons_of_mem c hd)
      rw [List.length_cons, Nat.mul_succ, total]
      omega
  rw [htotal, finshHeapMax, headerSize] at hsum
  rw [fuel, finshHeapMax]
  omega

theorem dvd_total (h : ∀ b ∈ bs, 4 ∣ b.len) : 4 ∣ total bs := by
  induction bs with
  | nil => exact Nat.dvd_zero 4
  | cons c cs ih => exact Nat.dvd_add (h c List.mem_cons_self) (ih fun d hd => h d (List.mem_cons_of_mem c hd))

theorem length_vacant_le (heap : ℕ) (bs : List Block) : (vacant heap bs).length ≤ bs.length := by
  rw [vacant, List.length_map]
  exact (List.length_filter_le _ _).trans (length_place heap bs).le

theorem length_occupied_le (heap : ℕ) (bs : List Block) : (occupied heap bs).length ≤ bs.length := by
  rw [occupied, List.length_map]
  exact (List.length_filter_le _ _).trans (length_place heap bs).le

/-! ### A block among the others -/

theorem vacant_middle_of_some {u : Unit} (heap : ℕ) (xs ys : List Block) (hb : b.label = some u) :
    vacant heap (xs ++ b :: ys) = vacant heap xs ++ vacant (heap + total xs + b.len) ys := by
  rw [vacant_append, vacant_cons_of_some ys (by rw [hb]; rfl)]

theorem vacant_middle_of_none (heap : ℕ) (xs ys : List Block) (hb : b.label = none) :
    vacant heap (xs ++ b :: ys) = vacant heap xs ++ (heap + total xs) :: vacant (heap + total xs + b.len) ys := by
  rw [vacant_append, vacant_cons_of_none ys hb]

theorem occupied_middle_of_some {u : Unit} (heap : ℕ) (xs ys : List Block) (hb : b.label = some u) :
    occupied heap (xs ++ b :: ys) = occupied heap xs ++ (heap + total xs) :: occupied (heap + total xs + b.len) ys := by
  rw [occupied_append, occupied_cons_of_some _ ys hb]

theorem occupied_middle_of_none (heap : ℕ) (xs ys : List Block) (hb : b.label = none) :
    occupied heap (xs ++ b :: ys) = occupied heap xs ++ occupied (heap + total xs + b.len) ys := by
  rw [occupied_append, occupied_cons_of_none _ ys hb]

theorem lengths_replace {m m' : Mem} {mid : List Block} (hroom : ∀ b ∈ xs ++ mid ++ ys, headerSize ≤ b.len)
    (hmid : mid ≠ []) (h : ∀ x ∈ place heap (xs ++ mid ++ ys), length m x.1 + headerSize = x.2.len)
    (hm : ∀ c ∈ headers heap (xs ++ mid ++ ys),
      length m' c = Function.update (length m) (heap + total xs) (total mid - headerSize) c) (label : Option Unit) :
    ∀ x ∈ place heap (xs ++ ⟨total mid, label⟩ :: ys), length m' x.1 + headerSize = x.2.len := by
  have hplace : place heap (xs ++ mid ++ ys) =
      place heap xs ++ place (heap + total xs) mid ++ place (heap + total xs + total mid) ys := by
    rw [place_append, place_append, total_append, Nat.add_assoc heap]
  obtain ⟨c, cs, rfl⟩ := List.exists_cons_of_ne_nil hmid
  have hc : headerSize ≤ c.len := hroom c (by simp)
  have htotal : headerSize ≤ total (c :: cs) := hc.trans (Nat.le_add_right c.len (total cs))
  rw [place_middle]
  intro x hx
  rcases List.mem_append.mp hx with hleft | hright
  · have hin : x ∈ place heap (xs ++ c :: cs ++ ys) := by
      rw [hplace]
      exact List.mem_append_left _ (List.mem_append_left _ hleft)
    have hlen := hroom x.2 (mem_of_place hin)
    have hbound := (mem_place (q := x.1) (b := x.2) hleft).2
    rw [headerSize] at hlen
    rw [hm x.1 (List.mem_map_of_mem hin), Function.update_of_ne (by omega)]
    exact h x hin
  · rcases List.mem_cons.mp hright with rfl | hbehind
    · have hin : heap + total xs ∈ headers heap (xs ++ c :: cs ++ ys) := by
        rw [headers, hplace]
        simp [place]
      rw [hm _ hin, Function.update_self]
      exact Nat.sub_add_cancel htotal
    · have hin : x ∈ place heap (xs ++ c :: cs ++ ys) := by
        rw [hplace]
        exact List.mem_append_right _ hbehind
      have hbound : heap + total xs + total (c :: cs) ≤ x.1 := (mem_place (q := x.1) (b := x.2) hbehind).1
      rw [headerSize] at htotal
      rw [hm x.1 (List.mem_map_of_mem hin), Function.update_of_ne (by omega)]
      exact h x hin

theorem vacant_before (hroom : ∀ b ∈ xs, headerSize ≤ b.len) (hlast : ∀ c ∈ xs.getLast?, c.label.isSome = true)
    (ha : a ∈ vacant heap xs) : ∃ c, (a, c) ∈ place heap xs ∧ a + c.len < heap + total xs := by
  obtain ⟨us, c, vs, rfl, rfl, hc⟩ := mem_vacant ha
  refine ⟨c, ?_, ?_⟩
  · rw [place_middle]
    exact List.mem_append_right _ List.mem_cons_self
  · cases vs with
    | nil =>
      have hsome := hlast c (by rw [List.getLast?_concat]; rfl)
      rw [hc] at hsome
      cases hsome
    | cons d vs =>
      have hd := hroom d (by simp)
      rw [headerSize] at hd
      rw [total_middle, total]
      omega

theorem vacant_behind (hroom : ∀ b ∈ ys, headerSize ≤ b.len) (hhead : ∀ c ∈ ys.head?, c.label.isSome = true)
    (ha : a ∈ vacant p ys) : p < a := by
  cases ys with
  | nil => cases ha
  | cons c ys =>
    rw [vacant_cons_of_some ys (hhead c rfl)] at ha
    obtain ⟨us, d, vs, -, rfl, -⟩ := mem_vacant ha
    have hc := hroom c List.mem_cons_self
    rw [headerSize] at hc
    omega

theorem Shape.apart (hp : Placed heap) (hs : Shape heap s bs) : Apart (headers heap bs) :=
  headers_apart hp hs.size hs.room

theorem Shape.vacant_fuel (hs : Shape heap s bs) : (vacant heap bs).length < fuel :=
  length_lt_fuel hs.size hs.room (length_vacant_le heap bs)

theorem Shape.occupied_fuel (hs : Shape heap s bs) : (occupied heap bs).length < fuel :=
  length_lt_fuel hs.size hs.room (length_occupied_le heap bs)

theorem Shape.vacant_nodup (hs : Shape heap s bs) : (vacant heap bs).Nodup :=
  (vacant_sorted hs.room).imp fun hlt => Nat.ne_of_lt hlt

theorem Shape.occupied_nodup (hs : Shape heap s bs) : (occupied heap bs).Nodup :=
  (occupied_sorted hs.room).imp fun hlt => Nat.ne_of_lt hlt

theorem occupied_of_none {mid : List Block} (hmid : ∀ c ∈ mid, c.label = none) (p : ℕ) : occupied p mid = [] := by
  rw [occupied, held, List.filter_eq_nil_iff.mpr, List.map_nil]
  intro x hx hsome
  rw [hmid x.2 (mem_of_place hx)] at hsome
  cases hsome

theorem Shape.join {m' : Mem} {mid : List Block} {rest : Option ℕ} (hs : Shape heap s (xs ++ mid ++ ys))
    (hmid : mid ≠ []) (hnone : ∀ c ∈ mid, c.label = none)
    (habs : Absorbed (headers heap (xs ++ mid ++ ys)) s.mem m' (heap + total xs) (total mid - headerSize) rest)
    (hfree : Linked (link m') (pointer s.freeList)
      (vacant heap xs ++ (heap + total xs) :: vacant (heap + total xs + total mid) ys)) :
    Shape heap { s with mem := m' } (xs ++ ⟨total mid, none⟩ :: ys) ∧
      occupied heap (xs ++ ⟨total mid, none⟩ :: ys) = occupied heap (xs ++ mid ++ ys) ∧
        ∀ a ∈ occupied heap (xs ++ mid ++ ys), length m' a = length s.mem a := by
  obtain ⟨c, cs, rfl⟩ := List.exists_cons_of_ne_nil hmid
  obtain ⟨hroom, hroomys⟩ := List.forall_mem_append.mp hs.room
  obtain ⟨hroomxs, hroommid⟩ := List.forall_mem_append.mp hroom
  obtain ⟨haligned, halignedys⟩ := List.forall_mem_append.mp hs.aligned
  obtain ⟨halignedxs, halignedmid⟩ := List.forall_mem_append.mp haligned
  have htotal : headerSize ≤ total (c :: cs) := (hroommid c List.mem_cons_self).trans (Nat.le_add_right c.len (total cs))
  have hocc : occupied heap (xs ++ ⟨total (c :: cs), none⟩ :: ys) = occupied heap (xs ++ (c :: cs) ++ ys) := by
    rw [occupied_middle_of_none heap xs ys rfl, occupied_append, occupied_append, occupied_of_none hnone, List.append_nil,
      total_append, Nat.add_assoc heap]
  have hfirst : heap + total xs ∈ vacant heap (xs ++ (c :: cs) ++ ys) := by
    rw [List.append_assoc, List.cons_append, vacant_middle_of_none heap xs _ (hnone c List.mem_cons_self)]
    exact List.mem_append_right _ List.mem_cons_self
  have hother : ∀ a ∈ occupied heap (xs ++ (c :: cs) ++ ys), a ≠ heap + total xs := by
    rintro a ha rfl
    exact not_mem_occupied hs.room hfirst ha
  refine ⟨⟨?_, ?_, ?_, lengths_replace hs.room hmid hs.lengths habs.lengths none, ?_, ?_, ?_⟩, hocc, fun a ha => ?_⟩
  · have hsize := hs.size
    rw [total_append, total_append] at hsize
    rw [total_middle]
    exact hsize
  · exact List.forall_mem_append.mpr ⟨hroomxs, List.forall_mem_cons.mpr ⟨htotal, hroomys⟩⟩
  · exact List.forall_mem_append.mpr ⟨halignedxs, List.forall_mem_cons.mpr ⟨dvd_total halignedmid, halignedys⟩⟩
  · rw [vacant_middle_of_none heap xs ys rfl]
    exact hfree
  · rw [hocc]
    refine hs.allocated.congr fun a ha => ?_
    rw [habs.links a (occupied_subset heap _ a ha), Function.update_of_ne (hother a ha)]
  · obtain ⟨d, hd, hlabel⟩ := hs.last
    cases ys with
    | nil => exact ⟨⟨total (c :: cs), none⟩, by rw [List.getLast?_concat]; rfl, rfl⟩
    | cons y ys =>
      refine ⟨d, ?_, hlabel⟩
      rw [List.getLast?_append_of_ne_nil _ (List.cons_ne_nil y ys)] at hd
      rw [List.getLast?_append_of_ne_nil _ (List.cons_ne_nil _ _), List.getLast?_cons_cons]
      exact hd
  · rw [habs.lengths a (occupied_subset heap _ a ha), Function.update_of_ne (hother a ha)]

theorem Whole.not_adjacent (hw : Whole heap s bs) (ha : a ∈ vacant heap bs) (hc : c ∈ vacant heap bs) :
    a + headerSize + length s.mem a ≠ c := by
  obtain ⟨hs, hcompact⟩ := hw
  obtain ⟨xs, b, ys, rfl, rfl, hb⟩ := mem_vacant ha
  have hplace : (heap + total xs, b) ∈ place heap (xs ++ b :: ys) := by
    rw [place_middle]
    exact List.mem_append_right _ List.mem_cons_self
  have hlen : length s.mem (heap + total xs) + headerSize = b.len := hs.lengths _ hplace
  obtain ⟨-, -, -, hhead⟩ := compact_append_cons.mp hcompact
  have hnext : ∀ d ∈ ys.head?, d.label.isSome = true := by
    intro d hd
    refine (hhead d hd).resolve_left ?_
    rw [hb]
    exact Bool.false_ne_true
  have hsorted : (vacant heap (xs ++ b :: ys)).Pairwise (· < ·) := vacant_sorted hs.room
  rw [vacant_middle_of_none heap xs ys hb] at hc hsorted
  have hend : heap + total xs + headerSize + length s.mem (heap + total xs) = heap + total xs + b.len := by omega
  rw [hend]
  rcases List.mem_append.mp hc with hleft | hright
  · have hlt := (List.pairwise_append.mp hsorted).2.2 c hleft _ List.mem_cons_self
    omega
  · rcases List.mem_cons.mp hright with rfl | hbehind
    · have hroom := hs.room b (List.mem_append_right _ List.mem_cons_self)
      rw [headerSize] at hroom
      omega
    · have hroom : ∀ d ∈ ys, headerSize ≤ d.len := fun d hd => hs.room d (List.mem_append_right _ (List.mem_cons_of_mem b hd))
      exact Nat.ne_of_lt (vacant_behind hroom hnext hbehind)

/-! ### The lists as the code follows them -/

/-- The blocks on the list of the allocated ones. -/
def FinshHeap.allocated (s : FinshHeap) : List ℕ := follow (link s.mem) fuel (pointer s.allocateList)

def FinshHeap.free (s : FinshHeap) : List ℕ := follow (link s.mem) fuel (pointer s.freeList)

/-- The header and the data. -/
def FinshHeap.block (s : FinshHeap) (a : ℕ) : Set ℕ := Set.Ico a (a + headerSize + length s.mem a)

theorem Shape.allocated_eq (hs : Shape heap s bs) : s.allocated = occupied heap bs :=
  hs.allocated.follow_eq hs.occupied_fuel.le

theorem Shape.free_eq (hs : Shape heap s bs) : s.free = vacant heap bs := hs.free.follow_eq hs.vacant_fuel.le

theorem Shape.block_eq (hs : Shape heap s bs) (hx : (a, b) ∈ place heap bs) : s.block a = Set.Ico a (a + b.len) := by
  rw [FinshHeap.block, ← hs.lengths _ hx, Nat.add_assoc, Nat.add_comm headerSize]

theorem Shape.getData_eq (hheap : Placed heap) (hs : Shape heap s bs) (ha : a ∈ headers heap bs) :
    getData a = a + headerSize := by
  have hbound := (headers_bound hs.room ha).2
  have hfits := hheap.fits
  rw [hs.size] at hbound
  exact add_of_lt (by omega)

theorem getData_ne_zero (hheap : Placed heap) (hs : Shape heap s bs) (ha : a ∈ headers heap bs) : getData a ≠ 0 := by
  rw [hs.getData_eq hheap ha]
  exact Nat.succ_ne_zero (a + 7)

end RtThread.Finsh.Heap
