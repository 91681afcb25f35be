import RtThread.Lib.Transition
import RtThread.Memory.SmallMemOps

/-!
# Runs of the small-memory heap

In every run the fields of the headers describe a chain of blocks from offset 0 to `heap_end`;
its blocks in use are those handed out and not freed.
-/

namespace RtThread.Memory.SmallMem

open RtThread.Lib.Bytes RtThread.Lib.Word RtThread.Lib.Tiling RtThread.Lib.Transition

variable {k : ℕ}

def dataRange (k : ℕ) (h : Heap) (p : ℕ) : Set ℕ :=
  Set.Ico (h.heapPtr + p + sizeofStructMem k) (h.heapPtr + nextOf h.mem p)

/-- `offs` are the offsets of the blocks of the heap, without `heap_end`. -/
structure Sound (k : ℕ) (s : Sys) (offs : List ℕ) : Prop where
  first : offs.head? = some 0
  next : (offs ++ [s.heap.heapEnd k]).IsChain fun p q => nextOf s.heap.mem p = q ∧ p < q
  prev_first : prevOf s.heap.mem 0 = 0
  prev : offs.IsChain fun p q => prevOf s.heap.mem q = p
  compact : offs.IsChain fun p q => usedOf s.heap.mem p ≠ 0 ∨ usedOf s.heap.mem q ≠ 0
  live_iff : ∀ r, (s.live r).isSome = true ↔
    ∃ p ∈ offs, usedOf s.heap.mem p ≠ 0 ∧ r = s.heap.heapPtr + p + sizeofStructMem k
  requested : ∀ p ∈ offs, ∀ n, s.live (s.heap.heapPtr + p + sizeofStructMem k) = some n →
    n ≤ nextOf s.heap.mem p - (p + sizeofStructMem k)
  aligned : ∀ r, (s.live r).isSome = true → 2 ^ k ∣ r
  inside : ∀ p ∈ offs, dataRange k s.heap p ⊆ Set.Ico s.heap.heapPtr (s.heap.heapPtr + s.heap.heapEnd k)
  disjoint : ∀ p ∈ offs, ∀ q ∈ offs, p ≠ q → Disjoint (dataRange k s.heap p) (dataRange k s.heap q)
  lfree : s.heap.lfree ∈ offs ++ [s.heap.heapEnd k]
  usedMem : s.heap.usedMem =
    ((offs.filter fun p => usedOf s.heap.mem p ≠ 0).map fun p => nextOf s.heap.mem p - p).sum

def Tracks (k : ℕ) (s : Sys) (bs : List (Tile ℕ)) : Prop :=
  ∀ r n, s.live r = some n ↔
    ∃ x ∈ held 0 bs, x.2.label = some n ∧ r = s.heap.heapPtr + x.1 + sizeofStructMem k

def Good (k : ℕ) (s : Sys) : Prop := ∃ bs, Inv k s.heap bs ∧ Tracks k s bs

/-! ### The chain that the headers describe -/

variable {m : Mem} {h : Heap} {s : Sys} {p q : ℕ} {bs : List (Tile ℕ)}

theorem place_head? (p : ℕ) (bs : List (Tile ℕ)) :
    ((place p bs).map Prod.fst ++ [p + total bs]).head? = some p := by
  cases bs <;> rfl

theorem Seg.next_chain (hk : k ≤ 30) (hs : Seg k m q p bs) :
    ((place p bs).map Prod.fst ++ [p + total bs]).IsChain fun x y => nextOf m x = y ∧ x < y := by
  have h12 := (sizeof_spec hk).1
  induction bs generalizing q p with
  | nil => exact List.isChain_singleton _
  | cons b bs ih =>
    obtain ⟨hhead, hlen, hrest⟩ := hs
    have hchain := ih hrest
    simp only [place, total, List.map_cons, List.cons_append, ← Nat.add_assoc]
    refine List.isChain_cons.mpr ⟨fun y hy => ?_, hchain⟩
    rw [place_head?] at hy
    cases hy
    exact ⟨hhead.next, by omega⟩

theorem Seg.prev_chain (hs : Seg k m q p bs) :
    ((place p bs).map Prod.fst).IsChain fun x y => prevOf m y = x := by
  induction bs generalizing q p with
  | nil => exact List.isChain_nil
  | cons b bs ih =>
    refine List.isChain_cons.mpr ⟨fun y hy => ?_, ih hs.2.2⟩
    cases bs with
    | nil => cases hy
    | cons c bs =>
      cases hy
      exact hs.2.2.1.prev

theorem Seg.compact_chain (hs : Seg k m q p bs) (hc : Compact bs) :
    ((place p bs).map Prod.fst).IsChain fun x y => usedOf m x ≠ 0 ∨ usedOf m y ≠ 0 := by
  refine hc.place_chain fun x hx hlabel => ?_
  rw [(hs.header hx).1, hlabel]
  exact Nat.one_ne_zero

theorem Seg.used_sum (hs : Seg k m q p bs) :
    ((((place p bs).map Prod.fst).filter fun x => usedOf m x ≠ 0).map fun x => nextOf m x - x).sum =
      lengths (held p bs) := by
  induction bs generalizing q p with
  | nil => rfl
  | cons b bs ih =>
    obtain ⟨hhead, hlen, hrest⟩ := hs
    have ih := ih hrest
    have hb := hhead.used
    cases hlabel : b.label with
    | none =>
      rw [hlabel] at hb
      rw [held_cons_of_none bs hlabel, ← ih]
      simp [place, hb]
    | some n =>
      rw [hlabel] at hb
      rw [held_cons_of_some bs hlabel, lengths_cons, ← ih]
      simp [place, hb, hhead.next]

theorem mem_held_iff (hs : Seg k m q p bs) {x : ℕ × Tile ℕ} :
    x ∈ held p bs ↔ x ∈ place p bs ∧ usedOf m x.1 ≠ 0 := by
  rw [held, List.mem_filter]
  refine and_congr_right fun hx => ?_
  rw [(hs.header hx).1]
  cases x.2.label <;> simp

theorem Good.sound (hk : k ≤ 30) (hg : Good k s) : ∃ offs, Sound k s offs := by
  obtain ⟨bs, hi, ht⟩ := hg
  obtain ⟨h12, -, hsdvd⟩ := sizeof_spec hk
  have hseg := hi.shape.seg
  have hend := hi.shape.total_eq
  have hheader : ∀ p ∈ (place 0 bs).map Prod.fst, ∃ b, (p, b) ∈ place 0 bs ∧
      nextOf s.heap.mem p = p + b.len ∧ sizeofStructMem k ≤ b.len ∧ p + b.len ≤ s.heap.heapEnd k := by
    intro p hp
    obtain ⟨⟨p, b⟩, hb, rfl⟩ := List.mem_map.mp hp
    have hin := (mem_place hb).2
    exact ⟨b, hb, (hseg.header hb).2.1, (hseg.header hb).2.2, by omega⟩
  have hlive : ∀ r, (s.live r).isSome = true ↔ ∃ x ∈ held 0 bs, r = s.heap.heapPtr + x.1 + sizeofStructMem k := by
    intro r
    rw [Option.isSome_iff_exists]
    constructor
    · rintro ⟨n, hn⟩
      obtain ⟨x, hx, -, hr⟩ := (ht r n).mp hn
      exact ⟨x, hx, hr⟩
    · rintro ⟨x, hx, hr⟩
      obtain ⟨n, hn⟩ := Option.isSome_iff_exists.mp (List.mem_filter.mp hx).2
      exact ⟨n, (ht r n).mpr ⟨x, hx, hn, hr⟩⟩
  have hne : bs ≠ [] := by
    rintro rfl
    rw [total, Heap.heapEnd] at hend
    omega
  refine ⟨(place 0 bs).map Prod.fst, ?_, ?_, ?_, hseg.prev_chain, hseg.compact_chain hi.compact, fun r => ?_,
    fun p hp n hn => ?_, fun r hr => ?_, fun p hp x hx => ?_, fun p hp q hq hpq => ?_, ?_, ?_⟩
  · cases bs with
    | nil => exact absurd rfl hne
    | cons b bs => rfl
  · have hchain := hseg.next_chain hk
    rwa [Nat.zero_add, hend] at hchain
  · cases bs with
    | nil => exact absurd rfl hne
    | cons b bs => exact hseg.1.prev
  · rw [hlive]
    constructor
    · rintro ⟨x, hx, hr⟩
      obtain ⟨hplace, hused⟩ := (mem_held_iff hseg).mp hx
      exact ⟨x.1, List.mem_map_of_mem hplace, hused, hr⟩
    · rintro ⟨p, hp, hused, hr⟩
      obtain ⟨x, hx, rfl⟩ := List.mem_map.mp hp
      exact ⟨x, (mem_held_iff hseg).mpr ⟨hx, hused⟩, hr⟩
  · obtain ⟨x, hx, hlabel, hr⟩ := (ht _ n).mp hn
    have hfits := (hi.fits x hx).2 n hlabel
    have hnext := (hseg.header ((mem_held_iff hseg).mp hx).1).2.1
    rw [show p = x.1 by omega, hnext]
    omega
  · obtain ⟨x, hx, rfl⟩ := (hlive r).mp hr
    obtain ⟨xs, ys, -, rfl, hx1, -⟩ := exists_append_of_mem_held (p := x.1) (b := x.2) hx
    have hdvd := hi.shape
    rw [List.append_assoc] at hdvd
    rw [hx1]
    exact Nat.dvd_add (Nat.dvd_add hi.shape.heapAligned hdvd.dvd_total) hsdvd
  · obtain ⟨b, -, hnext, -, hin⟩ := hheader p hp
    simp only [dataRange, hnext, Set.mem_Ico] at hx
    rw [Set.mem_Ico]
    omega
  · obtain ⟨b, hb, hnext, hlen, -⟩ := hheader p hp
    obtain ⟨c, hc, hnext', hlen', -⟩ := hheader q hq
    rw [Set.disjoint_left]
    intro x hx hx'
    simp only [dataRange, hnext, hnext', Set.mem_Ico] at hx hx'
    have hapart := place_disjoint hb hc hpq
    omega
  · rcases hi.shape.lfree with hl | ⟨b, hb⟩
    · rw [hl]
      simp
    · exact List.mem_append_left _ (List.mem_map_of_mem hb)
  · rw [hi.usedMem_eq, hseg.used_sum]

/-! ### Every run -/

theorem isHeader_first (m : Mem) {n : ℕ} (hn : n < 2 ^ 32) (h12 : 12 ≤ n) :
    IsHeader (setPrev (setNext (setUsed (setMagic (setUsed (setPrev (setNext (setMagic m 0 heapMagic)
      0 n) 0 0) 0 0) n heapMagic) n 1) n n) n n) 0 false n 0 := by
  have hmagic : heapMagic < 256 ^ 2 := by decide
  have hzero : (0 : ℕ) < 256 ^ 4 ∧ (0 : ℕ) < 256 ^ 2 := by decide
  constructor <;>
    simp (disch := omega) only [magicOf, usedOf, nextOf, prevOf, setMagic, setUsed, setNext, setPrev,
      load_store_of_disjoint, load_store_self, Bool.toNat_false]

/-- The heap that `rt_system_heap_init` makes: one free block, and `heap_end`. -/
structure Fresh (k : ℕ) (h : Heap) : Prop where
  first : IsHeader h.mem 0 false (h.heapEnd k) 0
  last : IsHeader h.mem (h.heapEnd k) true (h.heapEnd k) (h.heapEnd k)
  bound : h.heapPtr + h.heapEnd k + sizeofStructMem k < 2 ^ 32
  aligned : 2 ^ k ∣ h.heapEnd k ∧ 2 ^ k ∣ h.heapPtr
  lfree : h.lfree = 0
  usedMem : h.usedMem = 0

theorem init_fresh (hk : k ≤ 30) {beginAddr endAddr : ℕ} (hend : endAddr < 2 ^ 32)
    (hinit : rtSystemHeapInit k m beginAddr endAddr = some h) : Fresh k h := by
  obtain ⟨h12, hmax, hsdvd⟩ := sizeof_spec hk
  have hendLe : endAddr / 2 ^ k * 2 ^ k ≤ endAddr := Nat.div_mul_le_self _ _
  have hendDvd : 2 ^ k ∣ endAddr / 2 ^ k * 2 ^ k := Nat.dvd_mul_left _ _
  have hbeginDvd := dvd_alignUp k beginAddr
  obtain ⟨e, he⟩ : ∃ e, e = endAddr / 2 ^ k * 2 ^ k := ⟨_, rfl⟩
  obtain ⟨a, ha⟩ : ∃ a, a = alignUp k beginAddr := ⟨_, rfl⟩
  have hheaders : 2 * sizeofStructMem k % 2 ^ 32 = 2 * sizeofStructMem k := Nat.mod_eq_of_lt (by omega)
  simp only [rtSystemHeapInit, hheaders, ← he, ← ha, Option.ite_none_right_eq_some,
    Option.some.injEq] at hinit
  rw [← he] at hendLe hendDvd
  rw [← ha] at hbeginDvd
  obtain ⟨⟨hlt, hle⟩, hheap⟩ := hinit
  rw [sub_of_le (by omega) (by omega)] at hle
  have hsize : sub 32 (sub 32 e a) (2 * sizeofStructMem k) = e - a - 2 * sizeofStructMem k := by
    rw [sub_of_le (show a ≤ e by omega) (by omega), sub_of_le (by omega) (by omega)]
  rw [hsize, add_of_lt (by omega)] at hheap
  have hptr : h.heapPtr = a := by rw [← hheap]
  have hmem : h.memSizeAligned = e - a - 2 * sizeofStructMem k := by rw [← hheap]
  have hlast : h.heapEnd k = e - a - 2 * sizeofStructMem k + sizeofStructMem k := by rw [Heap.heapEnd, hmem]
  refine ⟨?_, ?_, by omega, ⟨?_, by rwa [hptr]⟩, by rw [← hheap], by rw [← hheap]⟩
  · rw [hlast, ← hheap]
    exact isHeader_first m (by omega) (by omega)
  · rw [hlast, ← hheap]
    exact isHeader_write _ _ true (by omega) (by omega)
  · rw [hlast]
    exact Nat.dvd_add (Nat.dvd_sub (Nat.dvd_sub hendDvd hbeginDvd) (Dvd.dvd.mul_left hsdvd 2)) hsdvd

theorem Fresh.shape (hf : Fresh k h) (hmin : minSizeAligned k ≤ h.memSizeAligned) :
    Shape k h [⟨h.heapEnd k, none⟩] := by
  refine ⟨⟨?_, ?_, trivial⟩, ?_, hf.bound, ?_, hf.aligned.2, hmin, ?_⟩
  · rw [Nat.zero_add]
    exact hf.first
  · exact Nat.le_add_left (sizeofStructMem k) h.memSizeAligned
  · simp [total]
  · intro b hb
    rw [List.mem_singleton.mp hb]
    exact hf.aligned.1
  · right
    exact ⟨_, by rw [hf.lfree]; exact List.mem_cons_self⟩

theorem init_good (hk : k ≤ 30) {beginAddr endAddr : ℕ} (hend : endAddr < 2 ^ 32)
    (hinit : rtSystemHeapInit k m beginAddr endAddr = some h) (hmin : minSizeAligned k ≤ h.memSizeAligned) :
    Good k ⟨h, fun _ => none⟩ := by
  have hf := init_fresh hk hend hinit
  refine ⟨_, ⟨hf.shape hmin, List.isChain_singleton _, nofun, hf.usedMem⟩, fun r n => ?_⟩
  exact iff_of_false nofun fun ⟨x, hx, _⟩ => by cases hx

theorem Tracks.ptr_pos (hk : k ≤ 30) {bs : List (Tile ℕ)} (ht : Tracks k s bs) : s.live 0 = none := by
  have h12 := (sizeof_spec hk).1
  by_contra hne
  obtain ⟨n, hn⟩ := Option.ne_none_iff_exists'.mp hne
  obtain ⟨x, -, -, hx⟩ := (ht 0 n).mp hn
  omega

theorem Tracks.block {r : ℕ} (ht : Tracks k s bs) (hr : (s.live r).isSome = true) :
    ∃ xs b ys n, bs = xs ++ [b] ++ ys ∧ s.live r = some n ∧ b.label = some n ∧
      r = s.heap.heapPtr + total xs + sizeofStructMem k := by
  obtain ⟨n, hn⟩ := Option.isSome_iff_exists.mp hr
  obtain ⟨⟨p, b⟩, hx, hlabel, rfl⟩ := (ht r n).mp hn
  obtain ⟨xs, ys, -, hbs, rfl, -⟩ := exists_append_of_mem_held hx
  exact ⟨xs, b, ys, n, hbs, hn, hlabel, rfl⟩

theorem Tracks.hand (hk : k ≤ 30) {h' : Heap} {bs' : List (Tile ℕ)} {p l n : ℕ} (ht : Tracks k s bs)
    (hi : Inv k h' bs') (hadds : Adds bs bs' (p, ⟨l, some n⟩)) (hptr : h'.heapPtr = s.heap.heapPtr) :
    Tracks k (.hand s.live (h', s.heap.heapPtr + p + sizeofStructMem k) n) bs' := by
  have h12 := (sizeof_spec hk).1
  intro r i
  simp only [Sys.hand, if_neg (show s.heap.heapPtr + p + sizeofStructMem k ≠ 0 by omega), hptr, hadds.mem_iff]
  by_cases hr : r = s.heap.heapPtr + p + sizeofStructMem k
  · rw [hr, Function.update_self]
    constructor
    · intro hn
      cases hn
      exact ⟨_, Or.inl rfl, rfl, rfl⟩
    · rintro ⟨x, rfl | hx, hlabel, hxp⟩
      · exact hlabel
      · exact absurd (show x.1 = p by omega) (hadds.ne hi hx)
  · rw [Function.update_of_ne hr, ht r i]
    constructor
    · rintro ⟨x, hx, hrest⟩
      exact ⟨x, Or.inr hx, hrest⟩
    · rintro ⟨x, rfl | hx, hlabel, hxp⟩
      · exact absurd hxp hr
      · exact ⟨x, hx, hlabel, hxp⟩

theorem Tracks.drop {h' : Heap} {bs' : List (Tile ℕ)} {p : ℕ} {b : Tile ℕ} (ht : Tracks k s bs)
    (hi : Inv k s.heap bs) (hadds : Adds bs' bs (p, b)) (hptr : h'.heapPtr = s.heap.heapPtr) :
    Tracks k ⟨h', Function.update s.live (s.heap.heapPtr + p + sizeofStructMem k) none⟩ bs' := by
  intro r i
  simp only [hptr]
  by_cases hr : r = s.heap.heapPtr + p + sizeofStructMem k
  · rw [hr, Function.update_self]
    refine iff_of_false nofun ?_
    rintro ⟨x, hx, -, hxp⟩
    exact absurd (show x.1 = p by omega) (hadds.ne hi hx)
  · rw [Function.update_of_ne hr, ht r i]
    simp only [hadds.mem_iff]
    constructor
    · rintro ⟨x, rfl | hx, hlabel, hxp⟩
      · exact absurd hxp hr
      · exact ⟨x, hx, hlabel, hxp⟩
    · rintro ⟨x, hx, hrest⟩
      exact ⟨x, Or.inr hx, hrest⟩

theorem Tracks.move (hk : k ≤ 30) {h' : Heap} {bs' : List (Tile ℕ)} {q p l n : ℕ} (ht : Tracks k s bs)
    (hmoves : Moves bs bs' q (p, ⟨l, some n⟩)) (hptr : h'.heapPtr = s.heap.heapPtr) :
    Tracks k (.hand (Function.update s.live (s.heap.heapPtr + q + sizeofStructMem k) none)
      (h', s.heap.heapPtr + p + sizeofStructMem k) n) bs' := by
  have h12 := (sizeof_spec hk).1
  intro r i
  simp only [Sys.hand, if_neg (show s.heap.heapPtr + p + sizeofStructMem k ≠ 0 by omega), hptr, hmoves.mem_iff]
  by_cases hr : r = s.heap.heapPtr + p + sizeofStructMem k
  · rw [hr, Function.update_self]
    constructor
    · intro hn
      cases hn
      exact ⟨_, Or.inl rfl, rfl, rfl⟩
    · rintro ⟨x, rfl | ⟨hx, hxq⟩, hlabel, hxp⟩
      · exact hlabel
      · exact absurd (show x.1 = p by omega) (hmoves.ne x hx hxq)
  · rw [Function.update_of_ne hr]
    by_cases hrq : r = s.heap.heapPtr + q + sizeofStructMem k
    · rw [hrq, Function.update_self]
      refine iff_of_false nofun ?_
      rintro ⟨x, rfl | ⟨hx, hxq⟩, -, hxp⟩
      · exact hr (hrq.trans hxp)
      · exact hxq (by omega)
    · rw [Function.update_of_ne hrq, ht r i]
      constructor
      · rintro ⟨x, hx, hlabel, hxp⟩
        exact ⟨x, Or.inr ⟨hx, fun hxq => hrq (by omega)⟩, hlabel, hxp⟩
      · rintro ⟨x, rfl | ⟨hx, -⟩, hlabel, hxp⟩
        · exact absurd hxp hr
        · exact ⟨x, hx, hlabel, hxp⟩

theorem free_good (hk : k ≤ 30) (hg : Good k s) {rmem : ℕ} (hr : rmem = 0 ∨ (s.live rmem).isSome = true) :
    ∃ h', rtFree k s.heap rmem = some h' ∧ Good k ⟨h', Function.update s.live rmem none⟩ := by
  obtain ⟨bs, hi, ht⟩ := hg
  rcases hr with rfl | hr
  · refine ⟨s.heap, rfl, bs, hi, ?_⟩
    rw [← ht.ptr_pos hk, Function.update_eq_self]
    exact ht
  · obtain ⟨xs, b, ys, n, rfl, -, hb, rfl⟩ := ht.block hr
    obtain ⟨h', bs', hfree, hi', hptr, hadds, -⟩ := rtFree_spec hk hi hb
    exact ⟨h', hfree, bs', hi', ht.drop hi hadds hptr⟩

theorem hand_good (hk : k ≤ 30) {h' : Heap} {r n : ℕ} (hi : Inv k s.heap bs) (ht : Tracks k s bs)
    (hspec : (r = 0 ∧ h' = s.heap) ∨ ∃ bs' p l, r = s.heap.heapPtr + p + sizeofStructMem k ∧
      Inv k h' bs' ∧ h'.heapPtr = s.heap.heapPtr ∧ Adds bs bs' (p, ⟨l, some n⟩)) :
    Good k (.hand s.live (h', r) n) := by
  rcases hspec with ⟨rfl, rfl⟩ | ⟨bs', p, l, rfl, hi', hptr, hadds⟩
  · exact ⟨bs, hi, ht⟩
  · exact ⟨bs', hi', ht.hand hk hi' hadds hptr⟩

theorem malloc_good (hk : k ≤ 30) (hg : Good k s) {size n : ℕ} (hsize : size + (2 ^ k - 1) < 2 ^ 32)
    (hn : n ≤ size) : ∃ r, rtMalloc k s.heap size = some r ∧ Good k (.hand s.live r n) := by
  obtain ⟨bs, hi, ht⟩ := hg
  obtain ⟨h', r, hr, hspec⟩ := rtMalloc_spec hk hi (hn.trans (le_request hsize))
  refine ⟨_, hr, hand_good hk hi ht (hspec.imp (fun hnull => ⟨hnull.1, hnull.2.1⟩) ?_)⟩
  rintro ⟨bs', p, l, hp, -, -, hi', hptr, hadds, -⟩
  exact ⟨bs', p, l, hp, hi', hptr, hadds⟩

theorem realloc_good (hk : k ≤ 30) (hg : Good k s) {rmem newsize : ℕ}
    (hr : rmem = 0 ∨ (s.live rmem).isSome = true) (hsize : newsize + (2 ^ k - 1) < 2 ^ 32) :
    ∃ s', call k s (.realloc rmem newsize) = some s' ∧ Good k s' := by
  simp only [call]
  by_cases hzero : newsize = 0
  · -- the block is freed
    have halign : alignUp k newsize = 0 := by
      rw [hzero] at hsize ⊢
      exact Nat.eq_zero_of_dvd_of_lt (dvd_alignUp k 0) (by have := (alignUp_spec hsize).2; omega)
    obtain ⟨h', hfree, hg'⟩ := free_good hk hg hr
    refine ⟨⟨h', Function.update s.live rmem none⟩, ?_, hg'⟩
    simp only [rtRealloc, halign]
    rw [if_neg (by omega), if_pos trivial, hfree, Option.map_some, Option.map_some, if_neg (by simp [hzero])]
    rfl
  · obtain ⟨bs, hi, ht⟩ := hg
    have hup := (alignUp_spec hsize).1
    rcases hr with rfl | hr
    · have hlive : Function.update s.live 0 none = s.live := by
        rw [← ht.ptr_pos hk, Function.update_eq_self]
      simp only [rtRealloc]
      split
      · exact ⟨s, by simp [hzero], bs, hi, ht⟩
      · rename_i hmem
        obtain ⟨r, hr, hg'⟩ := malloc_good hk ⟨bs, hi, ht⟩ (hi.shape.align_lt hk (not_lt.mp hmem)) hup
        rw [if_neg (by omega), if_pos trivial, hr, Option.map_some, hlive]
        refine ⟨_, rfl, ?_⟩
        split
        · rename_i hfail
          rw [Sys.hand, if_pos hfail.1] at hg'
          exact hg'
        · exact hg'
    · obtain ⟨xs, b, ys, n, rfl, -, hb, rfl⟩ := ht.block hr
      obtain ⟨h', r, hr', hspec⟩ := rtRealloc_spec hk hi hb hsize (by omega)
      rw [hr', Option.map_some]
      refine ⟨_, rfl, ?_⟩
      rcases hspec with ⟨rfl, rfl, -⟩ | ⟨bs', p, l, rfl, hi', hptr, hmoves, -⟩
      · rw [if_pos ⟨rfl, hzero⟩]
        exact ⟨_, hi, ht⟩
      · have h12 := (sizeof_spec hk).1
        rw [if_neg (fun hnull => by have := hnull.1; omega)]
        exact ⟨bs', hi', ht.move hk hmoves hptr⟩

theorem write_good (hk : k ≤ 30) (hg : Good k s) {rmem i : ℕ} {v : BitVec 8}
    (hi : i < (s.live rmem).getD 0) :
    Good k { s with heap := { s.heap with
      mem := Function.update s.heap.mem (rmem - s.heap.heapPtr + i) v } } := by
  obtain ⟨bs, hinv, ht⟩ := hg
  obtain ⟨n, hn⟩ : ∃ n, s.live rmem = some n := by
    cases hlive : s.live rmem with
    | none =>
      rw [hlive] at hi
      exact absurd hi (Nat.not_lt_zero i)
    | some n => exact ⟨n, rfl⟩
  obtain ⟨xs, b, ys, n', rfl, hn', hb, hrmem⟩ := ht.block (by rw [hn]; rfl)
  have hfits : sizeofStructMem k + n' ≤ b.len :=
    (hinv.fits (total xs, b) (by rw [held_middle_of_some xs ys hb]; simp)).2 n' hb
  rw [hn', Option.getD_some] at hi
  refine ⟨_, hinv.write hk fun x hx => (Function.update_of_ne ?_ _ _).symm, ht⟩
  omega

theorem step_good (hk : k ≤ 30) (hg : Good k s) {a : Act} (ha : a.Allowed k s) :
    ∃ s', step k s a = some s' ∧ Good k s' := by
  rw [step, if_pos ha]
  cases a with
  | malloc size =>
    obtain ⟨r, hr, hg'⟩ := malloc_good hk hg ha le_rfl
    exact ⟨_, by rw [call, hr, Option.map_some], hg'⟩
  | calloc count size =>
    obtain ⟨bs, hi, ht⟩ := hg
    obtain ⟨h', r, hr, hspec⟩ := rtCalloc_spec hk hi ha
    refine ⟨_, by rw [call, hr, Option.map_some], hand_good hk hi ht (hspec.imp_right ?_)⟩
    rintro ⟨bs', p, l, hp, hi', hptr, hadds, -⟩
    exact ⟨bs', p, l, hp, hi', hptr, hadds⟩
  | realloc rmem newsize => exact realloc_good hk hg ha.1 ha.2
  | free rmem =>
    obtain ⟨h', hfree, hg'⟩ := free_good hk hg ha
    exact ⟨_, by rw [call, hfree, Option.map_some], hg'⟩
  | write rmem i v => exact ⟨_, rfl, write_good hk hg ha⟩

theorem allowed_of_step {s' : Sys} {a : Act} (hstep : step k s a = some s') : a.Allowed k s ∧ call k s a = some s' := by
  rw [step] at hstep
  split at hstep
  · rename_i ha
    exact ⟨ha, hstep⟩
  · cases hstep

theorem Good.step (hk : k ≤ 30) (hg : Good k s) {s' : Sys} {a : Act} (hstep : SmallMem.step k s a = some s') :
    Good k s' := by
  obtain ⟨s₁, hs₁, hg₁⟩ := step_good hk hg (allowed_of_step hstep).1
  cases hs₁.symm.trans hstep
  exact hg₁

/-- In every run from a heap with room for a block the headers describe a chain of blocks from
offset 0 to `heap_end`, without two free neighbours, whose blocks in use are the live ones; and
every call that its caller may make returns. -/
theorem heap_invariant (hk : k ≤ 30) {beginAddr endAddr : ℕ} (hend : endAddr < 2 ^ 32)
    (hinit : rtSystemHeapInit k m beginAddr endAddr = some h) (hmin : minSizeAligned k ≤ h.memSizeAligned)
    {acts : List Act} (hrun : exec (step k) ⟨h, fun _ => none⟩ acts = some s) :
    (∃ offs, Sound k s offs) ∧ ∀ a : Act, a.Allowed k s → (step k s a).isSome = true := by
  have hg : Good k s := exec_inv (Good k) (fun _ _ _ hs hstep => hs.step hk hstep) (init_good hk hend hinit hmin) hrun
  refine ⟨hg.sound hk, fun a ha => ?_⟩
  obtain ⟨s', hs', -⟩ := step_good hk hg ha
  exact Option.isSome_of_eq_some hs'

/-! ### A heap without room for a block -/

/-- The search goes round at `heap_end` when the size is larger than the heap. -/
theorem searchLoop_stuck {size : ℕ} (hused : usedOf h.mem p ≠ 0) (hnext : nextOf h.mem p = p)
    (hlt : p < sub 32 h.memSizeAligned size) (fuel : ℕ) : searchLoop k h size fuel p = none := by
  induction fuel with
  | zero => rfl
  | succ fuel ih => rw [searchLoop, if_pos hlt, if_neg fun hand => hused hand.1, hnext, ih]

theorem Fresh.dataSize_eq (hk : k ≤ 30) (hf : Fresh k h) : dataSize k h.mem 0 = h.memSizeAligned := by
  obtain ⟨h12, hmax, -⟩ := sizeof_spec hk
  have hbound := hf.bound
  rw [dataSize, hf.first.next, add_of_lt (by omega), sub_of_le (by rw [Heap.heapEnd]; omega) (by omega), Heap.heapEnd]
  omega

theorem Fresh.search_stuck (hk : k ≤ 30) (hf : Fresh k h) (htiny : h.memSizeAligned < minSizeAligned k) (fuel : ℕ) :
    searchLoop k h (minSizeAligned k) fuel 0 = none := by
  obtain ⟨h12, hmax, -⟩ := sizeof_spec hk
  have hbound := hf.bound
  have hmin : minSizeAligned k = sizeofStructMem k := rfl
  have hlimit : h.heapEnd k < sub 32 h.memSizeAligned (minSizeAligned k) := by
    rw [Heap.heapEnd] at hbound ⊢
    rw [sub, Nat.mod_eq_of_lt (by omega)]
    omega
  have hdata := hf.dataSize_eq hk
  cases fuel with
  | zero => rfl
  | succ fuel =>
    rw [searchLoop, if_pos (by omega), if_neg (by rw [hdata]; omega), hf.first.next]
    refine searchLoop_stuck ?_ hf.last.next hlimit _
    rw [hf.last.used]
    exact Nat.one_ne_zero

theorem Fresh.tiny_malloc (hk : k ≤ 30) (hf : Fresh k h) (htiny : h.memSizeAligned < minSizeAligned k) {size r : ℕ}
    {h' : Heap} (hmalloc : rtMalloc k h size = some (h', r)) :
    h' = h ∧ r = 0 ∧ (size ≠ 0 → h.memSizeAligned < alignUp k size) := by
  simp only [rtMalloc] at hmalloc
  split at hmalloc
  · rename_i hzero
    cases hmalloc
    exact ⟨rfl, rfl, fun hne => absurd hzero hne⟩
  · split at hmalloc
    · rename_i hlt
      cases hmalloc
      exact ⟨rfl, rfl, fun _ => hlt⟩
    · rename_i hle
      rw [if_pos (by omega), hf.lfree, hf.search_stuck hk htiny] at hmalloc
      cases hmalloc

theorem Fresh.tiny_step (hk : k ≤ 30) (hf : Fresh k h) (htiny : h.memSizeAligned < minSizeAligned k) {a : Act}
    (hstep : SmallMem.step k ⟨h, fun _ => none⟩ a = some s) : s = ⟨h, fun _ => none⟩ := by
  obtain ⟨ha, hcall⟩ := allowed_of_step hstep
  cases a with
  | malloc size =>
    obtain ⟨⟨h', r⟩, hmalloc, rfl⟩ := Option.map_eq_some_iff.mp hcall
    obtain ⟨rfl, rfl, -⟩ := hf.tiny_malloc hk htiny hmalloc
    rfl
  | calloc count size =>
    obtain ⟨⟨h', r⟩, hcalloc, rfl⟩ := Option.map_eq_some_iff.mp hcall
    obtain ⟨⟨h₁, r₁⟩, hmalloc, hset⟩ := Option.map_eq_some_iff.mp hcalloc
    obtain ⟨rfl, rfl, -⟩ := hf.tiny_malloc hk htiny hmalloc
    cases hset
    rfl
  | realloc rmem newsize =>
    obtain ⟨⟨h', r⟩, hrealloc, rfl⟩ := Option.map_eq_some_iff.mp hcall
    obtain rfl : rmem = 0 := ha.1.resolve_right (by simp)
    have hsame : h' = h ∧ r = 0 := by
      simp only [rtRealloc] at hrealloc
      split at hrealloc
      · cases hrealloc
        exact ⟨rfl, rfl⟩
      · split at hrealloc
        · cases hrealloc
          exact ⟨rfl, rfl⟩
        · rw [if_pos trivial] at hrealloc
          obtain ⟨rfl, rfl, -⟩ := hf.tiny_malloc hk htiny hrealloc
          exact ⟨rfl, rfl⟩
    obtain ⟨rfl, rfl⟩ := hsame
    split
    · rfl
    · rw [Sys.hand, if_pos rfl, Function.update_eq_self]
  | free rmem =>
    obtain ⟨h', hfree, rfl⟩ := Option.map_eq_some_iff.mp hcall
    obtain rfl : rmem = 0 := ha.resolve_right (by simp)
    cases hfree
    rw [Function.update_eq_self]
  | write rmem i b => exact absurd ha (Nat.not_lt_zero i)

/-- A state of a run: it is in order, or the heap has no room for a block and is as it was. -/
def Reached (k : ℕ) (h : Heap) (s : Sys) : Prop :=
  Good k s ∨ h.memSizeAligned < minSizeAligned k ∧ s = ⟨h, fun _ => none⟩

theorem init_reached (hk : k ≤ 30) {beginAddr endAddr : ℕ} (hend : endAddr < 2 ^ 32)
    (hinit : rtSystemHeapInit k m beginAddr endAddr = some h) : Reached k h ⟨h, fun _ => none⟩ := by
  rcases le_or_gt (minSizeAligned k) h.memSizeAligned with hmin | htiny
  · exact Or.inl (init_good hk hend hinit hmin)
  · exact Or.inr ⟨htiny, rfl⟩

theorem Reached.step (hk : k ≤ 30) (hf : Fresh k h) (hr : Reached k h s) {s' : Sys} {a : Act}
    (hstep : SmallMem.step k s a = some s') : Reached k h s' := by
  rcases hr with hg | ⟨htiny, rfl⟩
  · exact Or.inl (hg.step hk hstep)
  · exact Or.inr ⟨htiny, hf.tiny_step hk htiny hstep⟩

theorem run_reached (hk : k ≤ 30) {beginAddr endAddr : ℕ} (hend : endAddr < 2 ^ 32)
    (hinit : rtSystemHeapInit k m beginAddr endAddr = some h) {acts : List Act}
    (hrun : exec (step k) ⟨h, fun _ => none⟩ acts = some s) : Reached k h s :=
  exec_inv (Reached k h) (fun _ _ _ hs hstep => hs.step hk (init_fresh hk hend hinit) hstep) (init_reached hk hend hinit) hrun

/-- A heap of 256 bytes: three blocks, one of them made shorter in place, one moved, one freed. -/
def sampleRun : List Act :=
  [.malloc 20, .malloc 40, .calloc 3 4, .write 0x20000010 19 7, .realloc 0x20000030 4,
   .realloc 0x20000010 60, .free 0x20000064]

theorem heap_invariant_sample :
    ∃ h s, rtSystemHeapInit 2 (fun _ => 0xaa) 0x20000001 0x20000100 = some h ∧
      exec (step 2) ⟨h, fun _ => none⟩ sampleRun = some s ∧ s.heap.usedMem = 88 ∧
      ∃ offs, Sound 2 s offs := by
  have hrun : ((rtSystemHeapInit 2 (fun _ => 0xaa) 0x20000001 0x20000100).bind fun h =>
      (exec (step 2) ⟨h, fun _ => none⟩ sampleRun).map fun s =>
        (h.memSizeAligned, s.heap.usedMem)) = some (228, 88) := by decide +kernel
  simp only [Option.bind_eq_some_iff, Option.map_eq_some_iff, Prod.mk.injEq] at hrun
  obtain ⟨h, hinit, s, hs, hsize, hused⟩ := hrun
  have hmin : minSizeAligned 2 ≤ h.memSizeAligned := by
    rw [hsize]
    decide
  exact ⟨h, s, hinit, hs, hused, (heap_invariant (by decide) (by decide) hinit hmin hs).1⟩

end RtThread.Memory.SmallMem
