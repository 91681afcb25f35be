import RtThread.Memory.MemHeapCalls

/-!
# Runs of a memory heap

In every run the blocks in use are those handed out and not freed, provided that a block is not made
larger by so much that the sum with `RT_MEMHEAP_MINIALLOC` wraps.
-/

namespace RtThread.Memory.MemHeap

open RtThread.Lib.Rings RtThread.Lib.Tiling RtThread.Lib.Transition RtThread.Lib.Word

variable {k : ℕ}

/-- The heap with the sizes that were asked for, for the pointers handed out and not freed. -/
structure Sys where
  heap : Memheap
  live : ℕ → Option ℕ

inductive Act where
  | alloc (size : ℕ)
  | realloc (ptr newsize : ℕ)
  | free (ptr : ℕ)

/-- What the callers keep to: pointers are live or `RT_NULL`, and sizes do not wrap when they are aligned. -/
def Act.Allowed (k : ℕ) (s : Sys) : Act → Prop
  | .alloc size => size + (2 ^ k - 1) < 2 ^ 32
  | .realloc ptr newsize => (ptr = 0 ∨ (s.live ptr).isSome = true) ∧ newsize + (2 ^ k - 1) < 2 ^ 32
  | .free ptr => ptr = 0 ∨ (s.live ptr).isSome = true

instance (s : Sys) : (a : Act) → Decidable (a.Allowed k s)
  | .alloc _ => inferInstanceAs (Decidable (_ < _))
  | .realloc _ _ => inferInstanceAs (Decidable (_ ∧ _))
  | .free _ => inferInstanceAs (Decidable (_ ∨ _))

/-- The pointer `r` is handed out for a block of `size` bytes, unless it is `RT_NULL`. -/
def hand (live : ℕ → Option ℕ) (r size : ℕ) : ℕ → Option ℕ :=
  if r = 0 then live else Function.update live r (some size)

def call (k : ℕ) (s : Sys) : Act → Option Sys
  | .alloc size => (rtMemheapAlloc k s.heap size).map fun r => ⟨r.2, hand s.live r.1 size⟩
  | .realloc ptr newsize =>
    (rtMemheapRealloc k s.heap ptr newsize).map fun r =>
      if r.1 = 0 ∧ newsize ≠ 0 then ⟨r.2, s.live⟩ else ⟨r.2, hand (Function.update s.live ptr none) r.1 newsize⟩
  | .free ptr => (rtMemheapFree k s.heap ptr).map fun h => ⟨h, Function.update s.live ptr none⟩

def step (k : ℕ) (s : Sys) (a : Act) : Option Sys := if a.Allowed k s then call k s a else none

/-- The aligned size and `RT_MEMHEAP_MINIALLOC` do not wrap when the next item of the block is free. -/
def SumFits (k : ℕ) (s : Sys) : Act → Prop
  | .realloc ptr newsize => ptr ≠ 0 → ¬s.heap.isUsed (s.heap.next (sub 32 ptr (memheapSize k))) →
      requestSize k newsize + memheapMinialloc < 2 ^ 32
  | _ => True

instance : (s : Sys) → (a : Act) → Decidable (SumFits k s a)
  | _, .alloc _ => inferInstanceAs (Decidable True)
  | _, .realloc _ _ => inferInstanceAs (Decidable (_ → _ → _))
  | _, .free _ => inferInstanceAs (Decidable True)

def dataRange (k : ℕ) (h : Memheap) (p : ℕ) : Set ℕ := Set.Ico (p + memheapSize k) (h.next p)

/-- `blocks` are the addresses of the items without the tailer, and `free` those on the free list. -/
structure Sound (k : ℕ) (s : Sys) (blocks free : List ℕ) : Prop where
  first : blocks.head? = some s.heap.startAddr
  ring : Circular s.heap.next s.heap.prev (blocks ++ [s.heap.tailAddr k])
  increasing : (blocks ++ [s.heap.tailAddr k]).Pairwise (· < ·)
  freeRing : Circular s.heap.nextFree s.heap.prevFree (s.heap.freeList :: free)
  free_nodup : free.Nodup
  free_iff : ∀ p, p ∈ free ↔ p ∈ blocks ∧ ¬s.heap.isUsed p
  compact : blocks.IsChain fun p q => s.heap.isUsed p ∨ s.heap.isUsed q
  available : s.heap.availableSize = (free.map (memitemSize k s.heap)).sum
  maxUsed : s.heap.maxUsedSize = s.heap.peak
  live_iff : ∀ r, (s.live r).isSome = true ↔ ∃ p ∈ blocks, s.heap.isUsed p ∧ r = p + memheapSize k
  requested : ∀ p ∈ blocks, ∀ n, s.live (p + memheapSize k) = some n → p + memheapSize k + n ≤ s.heap.next p
  disjoint : ∀ p ∈ blocks, ∀ q ∈ blocks, p ≠ q → Disjoint (dataRange k s.heap p) (dataRange k s.heap q)

/-! ### What the items and the pointers say -/

/-- The pointer to the data of a tile has the label of the tile. -/
def liveOf (k : ℕ) (labels : ℕ → Option ℕ) (r : ℕ) : Option ℕ :=
  if memheapSize k ≤ r then labels (r - memheapSize k) else none

def Good (k : ℕ) (s : Sys) : Prop :=
  ∃ bs fl, Shape k s.heap bs fl ∧ Counted s.heap ∧ s.live = liveOf k (labelAt s.heap.startAddr bs)

variable {s : Sys} {h h' : Memheap} {labels : ℕ → Option ℕ} {bs : List (Tile ℕ)}

theorem liveOf_add (p : ℕ) : liveOf k labels (p + memheapSize k) = labels p := by
  rw [liveOf, if_pos (Nat.le_add_left _ _), Nat.add_sub_cancel]

theorem liveOf_update (p : ℕ) (v : Option ℕ) :
    liveOf k (Function.update labels p v) = Function.update (liveOf k labels) (p + memheapSize k) v := by
  funext r
  by_cases hr : r = p + memheapSize k
  · rw [hr, liveOf_add, Function.update_self, Function.update_self]
  · rw [Function.update_of_ne hr, liveOf, liveOf]
    split
    · rw [Function.update_of_ne (by omega)]
    · rfl

theorem liveOf_eq_some {r n : ℕ} (hr : liveOf k labels r = some n) :
    ∃ p, r = p + memheapSize k ∧ labels p = some n := by
  rw [liveOf] at hr
  split at hr
  · exact ⟨r - memheapSize k, by omega, hr⟩
  · cases hr

theorem liveOf_null (hk : k ≤ 30) : liveOf k labels 0 = none := by
  have := (memheapSize_spec hk).1
  rw [liveOf, if_neg (by omega)]

theorem Leaves.good (hl : Leaves k h h' labels) : Good k ⟨h', liveOf k labels⟩ := by
  obtain ⟨hstart, bs, fl, hs, hc, rfl⟩ := hl
  exact ⟨bs, fl, hs, hc, by rw [hstart]⟩

theorem block_of_live {p r : ℕ} (hr : (liveOf k (labelAt p bs) r).isSome = true) :
    ∃ xs b ys n, bs = xs ++ b :: ys ∧ b.label = some n ∧ r = p + total xs + memheapSize k := by
  obtain ⟨n, hn⟩ := Option.isSome_iff_exists.mp hr
  obtain ⟨q, rfl, hq⟩ := liveOf_eq_some hn
  obtain ⟨xs, b, ys, rfl, rfl, hb⟩ := labelAt_eq_some hq
  exact ⟨xs, b, ys, n, rfl, hb, rfl⟩

/-! ### Every step -/

theorem hand_null (live : ℕ → Option ℕ) (size : ℕ) : hand live 0 size = live := if_pos rfl

theorem hand_add (hk : k ≤ 30) (live : ℕ → Option ℕ) (p size : ℕ) :
    hand live (p + memheapSize k) size = Function.update live (p + memheapSize k) (some size) := by
  have := (memheapSize_spec hk).1
  exact if_neg (by omega)

theorem update_null (hk : k ≤ 30) : Function.update (liveOf k labels) 0 none = liveOf k labels := by
  rw [Function.update_eq_self_iff]
  exact (liveOf_null hk).symm

/-- `rt_memheap_alloc` for a block of `n` bytes, when it is called with `size`. -/
theorem alloc_good (hk : k ≤ 30) (hg : Good k s) {size n : ℕ} (hsize : size + (2 ^ k - 1) < 2 ^ 32) (hn : n ≤ size) :
    ∃ r h', rtMemheapAlloc k s.heap size = some (r, h') ∧ Good k ⟨h', hand s.live r n⟩ := by
  obtain ⟨bs, fl, hs, hc, hlive⟩ := hg
  obtain ⟨r, h', halloc, ⟨rfl, rfl, -⟩ | ⟨p, rfl, -, -, hl⟩⟩ :=
    rtMemheapAlloc_spec hk hs hc (hn.trans (le_requestSize hsize))
  · refine ⟨0, s.heap.record, halloc, ?_⟩
    rw [hand_null, hlive]
    exact (Leaves.record hs hc).good
  · refine ⟨p + memheapSize k, h', halloc, ?_⟩
    rw [hand_add hk, hlive, ← liveOf_update]
    exact hl.good

theorem free_good (hk : k ≤ 30) (hg : Good k s) {ptr : ℕ} (hptr : ptr = 0 ∨ (s.live ptr).isSome = true) :
    ∃ h', rtMemheapFree k s.heap ptr = some h' ∧ Good k ⟨h', Function.update s.live ptr none⟩ := by
  obtain ⟨bs, fl, hs, hc, hlive⟩ := hg
  rw [hlive] at hptr ⊢
  rcases hptr with rfl | hptr
  · refine ⟨s.heap.record, if_pos rfl, ?_⟩
    rw [update_null hk]
    exact ⟨bs, fl, hs.record, hc.record, rfl⟩
  · obtain ⟨xs, b, ys, n, rfl, hb, rfl⟩ := block_of_live hptr
    obtain ⟨h', hfree, hl⟩ := rtMemheapFree_spec hk hs hc (by rw [hb]; rfl)
    refine ⟨h', hfree, ?_⟩
    rw [← liveOf_update]
    exact hl.good

theorem resize_good (hk : k ≤ 30) (hg : Good k s) {ptr newsize : ℕ} (hptr : (s.live ptr).isSome = true)
    (hsize : newsize + (2 ^ k - 1) < 2 ^ 32) (hpos : newsize ≠ 0)
    (hfits : ¬s.heap.isUsed (s.heap.next (sub 32 ptr (memheapSize k))) → requestSize k newsize + memheapMinialloc < 2 ^ 32) :
    ∃ s', call k s (.realloc ptr newsize) = some s' ∧ Good k s' := by
  obtain ⟨bs, fl, hs, hc, hlive⟩ := hg
  rw [hlive] at hptr
  obtain ⟨xs, b, ys, n, rfl, hb, rfl⟩ := block_of_live hptr
  have hH := memheapSize_spec hk
  obtain ⟨hlen, hend⟩ := hs.blocks.bounds
  have hbound := hs.blocks.bound
  have hxs : ∀ c ∈ xs, 0 < c.len := fun c hc => hs.blocks.pos hk c (by simp [hc])
  have hold := labelAt_middle hxs b ys s.heap.startAddr
  obtain ⟨r, h', hrealloc, hres, -⟩ := resize_spec hk hs hc hb (le_requestSize hsize) hpos fun hgrows => hfits hgrows.2.1
  simp only [call, hrealloc, Option.map_some, hlive]
  refine ⟨_, rfl, ?_⟩
  obtain ⟨rfl, hl⟩ | ⟨rfl, hl⟩ | ⟨q, rfl, hq, hl⟩ := hres
  · rw [if_pos ⟨rfl, hpos⟩]
    exact hl.good
  · rw [if_neg (by omega), hand_add hk, Function.update_idem, ← liveOf_update]
    exact hl.good
  · have hne : q ≠ s.heap.startAddr + total xs := by
      rintro rfl
      rw [hold, hb] at hq
      cases hq
    rw [if_neg (by omega), hand_add hk, Function.update_comm (by omega), ← liveOf_update, ← liveOf_update]
    exact hl.good

theorem step_good (hk : k ≤ 30) (hg : Good k s) {a : Act} (ha : a.Allowed k s) (hfits : SumFits k s a) :
    ∃ s', step k s a = some s' ∧ Good k s' := by
  rw [step, if_pos ha]
  cases a with
  | alloc size =>
    obtain ⟨r, h', halloc, hg'⟩ := alloc_good hk hg ha le_rfl
    exact ⟨_, by rw [call, halloc, Option.map_some], hg'⟩
  | free ptr =>
    obtain ⟨h', hfree, hg'⟩ := free_good hk hg ha
    exact ⟨_, by rw [call, hfree, Option.map_some], hg'⟩
  | realloc ptr newsize =>
    obtain ⟨hptr, hsize⟩ := ha
    by_cases hpos : newsize = 0
    · obtain ⟨h', hfree, hg'⟩ := free_good hk hg hptr
      refine ⟨⟨h', Function.update s.live ptr none⟩, ?_, hg'⟩
      rw [call, rtMemheapRealloc, if_pos hpos, hfree, Option.map_some, Option.map_some, if_neg (by simp [hpos]), hand_null]
    · rcases eq_or_ne ptr 0 with rfl | hne
      · -- a new block, whose size is aligned twice
        obtain ⟨hle, hreq⟩ := requestSize_spec hk hsize
        obtain ⟨r, h', halloc, hg'⟩ := alloc_good hk hg hreq hle
        have hnull : Function.update s.live 0 none = s.live := by
          obtain ⟨bs, fl, -, -, hlive⟩ := hg
          rw [hlive, update_null hk]
        refine ⟨⟨h', hand s.live r newsize⟩, ?_, hg'⟩
        rw [call, rtMemheapRealloc, if_neg hpos, if_pos rfl, halloc, Option.map_some, hnull]
        rcases eq_or_ne r 0 with rfl | hr
        · rw [if_pos ⟨rfl, hpos⟩, hand_null]
        · rw [if_neg (fun h => hr h.1)]
      · exact resize_good hk hg (hptr.resolve_left hne) hsize hpos (hfits hne)

/-! ### The rings -/

theorem Blocks.block (hb : Blocks k h bs) {p : ℕ} (hp : p ∈ (place h.startAddr bs).map Prod.fst) :
    ∃ xs b ys, bs = xs ++ b :: ys ∧ p = h.startAddr + total xs ∧ h.next p = p + b.len ∧ memheapSize k ≤ b.len ∧
      (h.isUsed p ↔ b.label.isSome = true) := by
  obtain ⟨⟨q, b⟩, hx, rfl⟩ := List.mem_map.mp hp
  obtain ⟨xs, ys, rfl, rfl⟩ := exists_append_of_mem_place hx
  exact ⟨xs, b, ys, rfl, rfl, hb.next_eq, hb.bounds.1, hb.isUsed_iff⟩

theorem Blocks.mem_vacant_iff (hb : Blocks k h bs) {p : ℕ} :
    p ∈ vacant h.startAddr bs ↔ p ∈ (place h.startAddr bs).map Prod.fst ∧ ¬h.isUsed p := by
  constructor
  · intro hp
    obtain ⟨xs, b, ys, rfl, rfl, hlabel⟩ := mem_vacant hp
    refine ⟨vacant_subset_place _ _ hp, ?_⟩
    rw [hb.isUsed_iff, hlabel]
    exact Bool.false_ne_true
  · rintro ⟨hp, hfree⟩
    obtain ⟨xs, b, ys, rfl, rfl, -, -, hiff⟩ := hb.block hp
    have hlabel : b.label = none := by
      rw [hiff, Bool.not_eq_true, Option.isSome_eq_false_iff, Option.isNone_iff_eq_none] at hfree
      exact hfree
    rw [vacant_append, vacant_cons_of_none _ hlabel]
    exact List.mem_append_right _ List.mem_cons_self

theorem Blocks.compact_chain (hb : Blocks k h bs) (hc : Compact bs) :
    ((place h.startAddr bs).map Prod.fst).IsChain fun p q => h.isUsed p ∨ h.isUsed q := by
  refine hc.place_chain fun x hx hlabel => ?_
  rw [Memheap.isUsed, (hb.item x hx).1]
  exact (mark_isUsed _).mpr hlabel

theorem Blocks.spare_eq (hk : k ≤ 30) (hb : Blocks k h bs) :
    ((vacant h.startAddr bs).map (memitemSize k h)).sum = spare k bs := by
  have hsuffix : ∀ zs xs, bs = xs ++ zs →
      ((vacant (h.startAddr + total xs) zs).map (memitemSize k h)).sum = spare k zs := by
    intro zs
    induction zs with
    | nil =>
      intro xs _
      rfl
    | cons b zs ih =>
      rintro xs rfl
      have hrest := ih (xs ++ [b]) (by simp)
      rw [total_append, total, total, Nat.add_zero, ← Nat.add_assoc] at hrest
      cases hlabel : b.label with
      | none =>
        rw [vacant_cons_of_none _ hlabel, spare_cons_of_none _ hlabel, List.map_cons, List.sum_cons, hrest, hb.size_eq hk]
      | some n =>
        have hused : b.label.isSome = true := by rw [hlabel]; rfl
        rw [vacant_cons_of_some _ hused, spare_cons_of_some _ hused, hrest]
  exact hsuffix bs [] rfl

theorem Good.sound (hk : k ≤ 30) (hg : Good k s) : ∃ blocks free, Sound k s blocks free := by
  obtain ⟨bs, fl, hs, hc, hlive⟩ := hg
  have hb := hs.blocks
  have hH := memheapSize_spec hk
  have hroom := hb.room
  have htotal := hb.total_eq
  have htail : s.heap.tailAddr k = s.heap.startAddr + total bs := by
    rw [Memheap.tailAddr]
    omega
  have hends : (place s.heap.startAddr bs).map Prod.fst ++ [s.heap.tailAddr k] = ends s.heap.startAddr bs := by
    rw [htail, ends]
  refine ⟨(place s.heap.startAddr bs).map Prod.fst, fl, ?_, ?_, ?_, hs.free, (List.nodup_cons.mp (hs.nodup hk)).2,
    fun p => ?_, hb.compact_chain hs.compact, ?_, hc.1, fun r => ?_, fun p hp n hn => ?_, fun p hp q hq hpq => ?_⟩
  · cases bs with
    | nil =>
      rw [total] at htotal
      omega
    | cons b bs => rfl
  · rw [hends]
    exact hb.ring
  · rw [hends]
    exact ends_pairwise (hb.pos hk) _
  · rw [hs.perm.mem_iff, hb.mem_vacant_iff]
  · rw [hs.available, ← hb.spare_eq hk]
    exact (hs.perm.map _).sum_eq.symm
  · rw [hlive]
    constructor
    · intro hr
      obtain ⟨xs, b, ys, n, rfl, hlabel, rfl⟩ := block_of_live hr
      refine ⟨s.heap.startAddr + total xs, ?_, hb.isUsed_iff.mpr (by rw [hlabel]; rfl), rfl⟩
      rw [place_middle]
      simp
    · rintro ⟨p, hp, hused, rfl⟩
      obtain ⟨xs, b, ys, rfl, rfl, -, -, hiff⟩ := hb.block hp
      rw [liveOf_add, labelAt_middle (fun c hc => hb.pos hk c (by simp [hc]))]
      exact hiff.mp hused
  · obtain ⟨xs, b, ys, rfl, rfl, hnext, -, -⟩ := hb.block hp
    rw [hlive, liveOf_add, labelAt_middle (fun c hc => hb.pos hk c (by simp [hc]))] at hn
    have := hs.roomy b (by simp) n hn
    omega
  · obtain ⟨⟨p, b⟩, hx, rfl⟩ := List.mem_map.mp hp
    obtain ⟨⟨q, c⟩, hy, rfl⟩ := List.mem_map.mp hq
    obtain ⟨xs, ys, hbs, hxp⟩ := exists_append_of_mem_place hx
    obtain ⟨us, vs, hbs', hyq⟩ := exists_append_of_mem_place hy
    have hapart := place_disjoint hx hy hpq
    have hnext : s.heap.next p = p + b.len := by
      rw [hbs] at hb
      rw [hxp]
      exact hb.next_eq
    have hnext' : s.heap.next q = q + c.len := by
      rw [hbs'] at hb
      rw [hyq]
      exact hb.next_eq
    rw [Set.disjoint_left]
    intro x hx hx'
    simp only [dataRange, hnext, hnext', Set.mem_Ico] at hx hx'
    omega

/-! ### The first item -/

/-- The items after `rt_memheap_init`, when the tailer is at `tail`. -/
structure Fresh (h g : Memheap) (startAddr pool avail tail : ℕ) : Prop where
  self : g.self = h.self
  start : g.startAddr = startAddr
  poolSize : g.poolSize = pool
  availableSize : g.availableSize = avail
  maxUsedSize : g.maxUsedSize = sub 32 pool avail
  peak : g.peak = sub 32 pool avail
  freeList : g.freeList = h.freeHeader
  next : g.next startAddr = tail ∧ g.next tail = startAddr
  prev : g.prev startAddr = tail ∧ g.prev tail = startAddr
  magic : g.magic startAddr = memheapMagic ∧ g.magic tail = memheapMagic ||| memheapUsed
  poolPtr : g.poolPtr startAddr = h.self
  nextFree : g.nextFree h.freeHeader = startAddr ∧ g.nextFree startAddr = h.freeHeader
  prevFree : g.prevFree h.freeHeader = startAddr ∧ g.prevFree startAddr = h.freeHeader

theorem init_fresh {startAddr size pool avail tail : ℕ} (hpool : size / 2 ^ k * 2 ^ k = pool)
    (havail : sub 32 pool (2 * memheapSize k % 2 ^ 32) = avail)
    (htail : add 32 (add 32 startAddr avail) (memheapSize k) = tail) (hne : startAddr ≠ tail)
    (hhdr : h.freeHeader ≠ startAddr) (hhdr' : h.freeHeader ≠ tail) :
    Fresh h (rtMemheapInit k h startAddr size) startAddr pool avail tail := by
  unfold rtMemheapInit
  simp only [hpool, havail, htail, insertFree]
  constructor <;> simp [hne, hhdr, hhdr.symm, hhdr', Function.update_of_ne]

theorem init_shape (hk : k ≤ 30) {startAddr size : ℕ} (hsize : size < 2 ^ 32) (hbound : startAddr + size ≤ 2 ^ 32)
    (hroom : 2 * memheapSize k ≤ size / 2 ^ k * 2 ^ k)
    (houtside : h.freeHeader < startAddr ∨ startAddr + size ≤ h.freeHeader) :
    ∃ len, Shape k (rtMemheapInit k h startAddr size) [⟨len, none⟩] [startAddr] ∧
      Counted (rtMemheapInit k h startAddr size) := by
  have hH := memheapSize_spec hk
  have hle : size / 2 ^ k * 2 ^ k ≤ size := Nat.div_mul_le_self _ _
  obtain ⟨pool, hpool⟩ : ∃ pool, size / 2 ^ k * 2 ^ k = pool := ⟨_, rfl⟩
  rw [hpool] at hroom hle
  have hlen : startAddr + (pool - 2 * memheapSize k) + memheapSize k = startAddr + (pool - memheapSize k) := by omega
  have havail : sub 32 pool (2 * memheapSize k % 2 ^ 32) = pool - 2 * memheapSize k := by
    rw [Nat.mod_eq_of_lt (by omega), sub_of_le hroom (by omega)]
  have htail : add 32 (add 32 startAddr (pool - 2 * memheapSize k)) (memheapSize k) = startAddr + (pool - memheapSize k) := by
    rw [add_add_of_lt (by omega), hlen]
  have hg := @init_fresh k h startAddr size pool _ _ hpool havail htail (by omega) (by omega) (by omega)
  obtain ⟨g, heq⟩ : ∃ g, rtMemheapInit k h startAddr size = g := ⟨_, rfl⟩
  rw [heq] at hg ⊢
  refine ⟨pool - memheapSize k, ⟨⟨?_, fun b hb => ?_, fun x hx => ?_, ?_, ?_, ?_, ?_⟩, ?_, ?_, ?_, ?_, ?_, fun b hb n hn => ?_⟩, ?_⟩
  · simp only [ends, place, hg.start, total, List.map_cons, List.map_nil, Nat.add_zero, List.cons_append, List.nil_append]
    exact ⟨by simp [hg.next], by simp [hg.prev]⟩
  · rw [List.mem_singleton.mp hb]
    exact Nat.le_sub_of_add_le (by omega)
  · rw [List.mem_singleton.mp hx, hg.start, hg.self]
    exact ⟨hg.magic.1, hg.poolPtr⟩
  · rw [hg.start, total, total, Nat.add_zero]
    exact hg.magic.2
  · rw [hg.poolSize, total, total]
    show pool - memheapSize k + 0 + memheapSize k = pool
    omega
  · rw [hg.start, hg.poolSize]
    omega
  · rw [hg.poolSize]
    exact hroom
  · rw [FreeRing, hg.freeList]
    exact ⟨by simp [hg.nextFree], by simp [hg.prevFree]⟩
  · rw [hg.start]
    exact List.Perm.refl _
  · rw [hg.freeList, hg.start, hg.poolSize]
    omega
  · exact List.isChain_singleton _
  · rw [hg.availableSize, spare_cons_of_none _ rfl, spare, List.map_nil, List.sum_nil]
    show pool - 2 * memheapSize k = pool - memheapSize k - memheapSize k + 0
    omega
  · rw [List.mem_singleton.mp hb] at hn
    cases hn
  · rw [Counted, Memheap.used, hg.maxUsedSize, hg.peak, hg.poolSize, hg.availableSize]
    exact ⟨rfl, le_rfl⟩

theorem init_good (hk : k ≤ 30) {startAddr size : ℕ} (hsize : size < 2 ^ 32) (hbound : startAddr + size ≤ 2 ^ 32)
    (hroom : 2 * memheapSize k ≤ size / 2 ^ k * 2 ^ k)
    (houtside : h.freeHeader < startAddr ∨ startAddr + size ≤ h.freeHeader) :
    Good k ⟨rtMemheapInit k h startAddr size, fun _ => none⟩ := by
  obtain ⟨len, hs, hc⟩ := init_shape hk hsize hbound hroom houtside
  refine ⟨_, _, hs, hc, funext fun r => ?_⟩
  rw [liveOf]
  split
  · simp [labelAt]
  · rfl

/-! ### Where the heap lies -/

/-- The pool and the header of the free list stay where they are. -/
def Memheap.region (h : Memheap) : ℕ × ℕ × ℕ := (h.startAddr, h.poolSize, h.freeList)

@[simp] theorem record_region : h.record.region = h.region := rfl

@[simp] theorem charge_region (x : ℕ) : (h.charge x).region = h.region := rfl

@[simp] theorem withAvailable_region (x : ℕ) : (h.withAvailable x).region = h.region := rfl

@[simp] theorem useItem_region (p : ℕ) : (useItem h p).region = h.region := rfl

@[simp] theorem unuseItem_region (p : ℕ) : (unuseItem h p).region = h.region := rfl

@[simp] theorem insertFree_region (p : ℕ) : (insertFree h p).region = h.region := rfl

@[simp] theorem removeFree_region (p : ℕ) : (removeFree h p).region = h.region := rfl

@[simp] theorem clearFree_region (p : ℕ) : (clearFree h p).region = h.region := rfl

@[simp] theorem newItem_region (p q : ℕ) : (newItem h p q).region = h.region := rfl

@[simp] theorem mergeItem_region (p q : ℕ) : (mergeItem h p q).region = h.region := rfl

@[simp] theorem takeItem_region (p freeSize size : ℕ) : (takeItem k h p freeSize size).region = h.region := by
  unfold takeItem
  rw [useItem_region]
  by_cases hsplit : add 32 (add 32 size (memheapSize k)) memheapMinialloc ≤ freeSize
  · rw [if_pos hsplit]
    simp only
    rw [charge_region, insertFree_region, clearFree_region, removeFree_region, newItem_region]
  · rw [if_neg hsplit]
    simp only
    rw [clearFree_region, removeFree_region, charge_region]

@[simp] theorem mergePrev_region (p : ℕ) : (mergePrev k h p).2.2.region = h.region := by
  unfold mergePrev
  split
  · exact (mergeItem_region _ _).trans (withAvailable_region _)
  · rfl

@[simp] theorem mergeNext_region (p : ℕ) : (mergeNext k h p).region = h.region := by
  unfold mergeNext
  simp only
  split
  · exact (removeFree_region _).trans ((mergeItem_region _ _).trans (withAvailable_region _))
  · rfl

@[simp] theorem absorbNext_region (q : ℕ) : (absorbNext k h q).region = h.region := by
  unfold absorbNext
  simp only
  split
  · exact (removeFree_region _).trans ((mergeItem_region _ _).trans (withAvailable_region _))
  · rfl

theorem rtMemheapAlloc_region {size r : ℕ} (hrun : rtMemheapAlloc k h size = some (r, h')) : h'.region = h.region := by
  unfold rtMemheapAlloc at hrun
  simp only at hrun
  split at hrun
  · obtain ⟨x, -, hx⟩ := Option.map_eq_some_iff.mp hrun
    split at hx
    · cases hx
      simp
    · cases hx
      simp
  · cases hrun
    simp

theorem rtMemheapFree_region {ptr : ℕ} (hrun : rtMemheapFree k h ptr = some h') : h'.region = h.region := by
  unfold rtMemheapFree at hrun
  simp only at hrun
  split at hrun
  · cases hrun
    simp
  · split at hrun
    · have hjoined := ((mergePrev_region (k := k) (sub 32 ptr (memheapSize k))).trans
        (withAvailable_region (add 32 (unuseItem h (sub 32 ptr (memheapSize k))).availableSize
          (memitemSize k (unuseItem h (sub 32 ptr (memheapSize k))) (sub 32 ptr (memheapSize k)))))).trans
            (unuseItem_region (h := h) (sub 32 ptr (memheapSize k)))
      rw [← Option.some.inj hrun, record_region]
      split
      · exact (insertFree_region _).trans ((mergeNext_region _).trans hjoined)
      · exact (mergeNext_region _).trans hjoined
    · cases hrun

@[simp] theorem growItem_region (p oldsize newsize : ℕ) : (growItem k h p oldsize newsize).region = h.region := by
  unfold growItem
  exact (insertFree_region _).trans ((newItem_region _ _).trans ((mergeItem_region _ _).trans
    ((removeFree_region _).trans (charge_region _))))

@[simp] theorem shrinkItem_region (p newsize : ℕ) : (shrinkItem k h p newsize).region = h.region := by
  unfold shrinkItem
  exact (withAvailable_region _).trans ((insertFree_region _).trans ((absorbNext_region _).trans (newItem_region _ _)))

theorem rtMemheapRealloc_region {ptr newsize r : ℕ} (hrun : rtMemheapRealloc k h ptr newsize = some (r, h')) :
    h'.region = h.region := by
  unfold rtMemheapRealloc at hrun
  split at hrun
  · obtain ⟨h₁, hfree, hpair⟩ := Option.map_eq_some_iff.mp hrun
    cases hpair
    exact rtMemheapFree_region hfree
  · simp only at hrun
    split at hrun
    · exact rtMemheapAlloc_region hrun
    · split at hrun
      · split at hrun
        · split at hrun
          · cases hrun
            rw [record_region, growItem_region]
          · obtain ⟨⟨r₁, h₁⟩, halloc, hrest⟩ := Option.bind_eq_some_iff.mp hrun
            have hregion := rtMemheapAlloc_region halloc
            split at hrest
            · obtain ⟨h₂, hfree, hpair⟩ := Option.map_eq_some_iff.mp hrest
              cases hpair
              exact (rtMemheapFree_region hfree).trans hregion
            · cases hrest
              exact hregion
        · cases hrun
      · split at hrun
        · cases hrun
          simp
        · cases hrun
          rw [record_region, shrinkItem_region]

theorem step_region {s' : Sys} {a : Act} (hstep : step k s a = some s') : s'.heap.region = s.heap.region := by
  rw [step] at hstep
  split at hstep
  · cases a with
    | alloc size =>
      obtain ⟨⟨r, h'⟩, halloc, hs'⟩ := Option.map_eq_some_iff.mp hstep
      have hregion := rtMemheapAlloc_region halloc
      rw [← hs']
      exact hregion
    | realloc ptr newsize =>
      obtain ⟨⟨r, h'⟩, hrealloc, hs'⟩ := Option.map_eq_some_iff.mp hstep
      have hregion := rtMemheapRealloc_region hrealloc
      split at hs'
      · rw [← hs']
        exact hregion
      · rw [← hs']
        exact hregion
    | free ptr =>
      obtain ⟨h', hfree, hs'⟩ := Option.map_eq_some_iff.mp hstep
      have hregion := rtMemheapFree_region hfree
      rw [← hs']
      exact hregion
  · cases hstep

theorem run_region {s' : Sys} {acts : List Act} (hrun : exec (step k) s acts = some s') :
    s'.heap.region = s.heap.region :=
  exec_inv (fun s' => s'.heap.region = s.heap.region) (fun _ _ _ hs hstep => (step_region hstep).trans hs) rfl hrun

/-! ### Every run -/

theorem allowed_of_step {s' : Sys} {a : Act} (hstep : step k s a = some s') : a.Allowed k s ∧ call k s a = some s' := by
  rw [step] at hstep
  split at hstep
  · rename_i ha
    exact ⟨ha, hstep⟩
  · cases hstep

theorem run_good (hk : k ≤ 30) {startAddr size : ℕ} (hsize : size < 2 ^ 32) (hbound : startAddr + size ≤ 2 ^ 32)
    (hroom : 2 * memheapSize k ≤ size / 2 ^ k * 2 ^ k)
    (houtside : h.freeHeader < startAddr ∨ startAddr + size ≤ h.freeHeader) {acts : List Act}
    (hfits : AllSteps (step k) (SumFits k) ⟨rtMemheapInit k h startAddr size, fun _ => none⟩ acts)
    (hrun : exec (step k) ⟨rtMemheapInit k h startAddr size, fun _ => none⟩ acts = some s) : Good k s := by
  refine exec_inv_of_allSteps (Good k) (SumFits k) (fun s a s' hs hC hstep => ?_)
    (init_good hk hsize hbound hroom houtside) hfits hrun
  obtain ⟨s₁, hs₁, hg₁⟩ := step_good hk hs (allowed_of_step hstep).1 hC
  cases hs₁.symm.trans hstep
  exact hg₁

/-- In every run in which no block is made larger by so much that the sum with `RT_MEMHEAP_MINIALLOC` wraps, the two
rings hold the items of the pool and the free ones among them, no two free items are neighbours, the sizes are
counted, and the blocks in use are the live ones; and every such call returns. -/
theorem memheap_invariant (hk : k ≤ 30) {startAddr size : ℕ} (hsize : size < 2 ^ 32) (hbound : startAddr + size ≤ 2 ^ 32)
    (hroom : 2 * memheapSize k ≤ size / 2 ^ k * 2 ^ k)
    (houtside : h.freeHeader < startAddr ∨ startAddr + size ≤ h.freeHeader) {acts : List Act}
    (hfits : AllSteps (step k) (SumFits k) ⟨rtMemheapInit k h startAddr size, fun _ => none⟩ acts)
    (hrun : exec (step k) ⟨rtMemheapInit k h startAddr size, fun _ => none⟩ acts = some s) :
    (∃ blocks free, Sound k s blocks free) ∧
      ∀ a : Act, a.Allowed k s → SumFits k s a → (step k s a).isSome = true := by
  have hg := run_good hk hsize hbound hroom houtside hfits hrun
  refine ⟨hg.sound hk, fun a ha hC => ?_⟩
  obtain ⟨s', hs', -⟩ := step_good hk hg ha hC
  exact Option.isSome_of_eq_some hs'

/-- A heap object at the address 1000. -/
def sampleHeap : Memheap :=
  ⟨1000, 1040, 0, 0, 0, 0, 0, 0, fun _ => 0, fun _ => 0, fun _ => 0, fun _ => 0, fun _ => 0, fun _ => 0, 0⟩

def sampleInit : Sys := ⟨rtMemheapInit 2 sampleHeap 0x20000000 256, fun _ => none⟩

/-- Two blocks; the second is made longer and shorter in place; the first moves and is freed. -/
def sampleRun : List Act :=
  [.alloc 16, .alloc 20, .realloc 0x20000040 60, .realloc 0x20000040 14, .realloc 0x20000018 18, .free 0]

theorem memheap_invariant_sample :
    ∃ s, AllSteps (step 2) (SumFits 2) sampleInit sampleRun ∧ exec (step 2) sampleInit sampleRun = some s ∧
      s.heap.availableSize = 100 ∧ s.heap.maxUsedSize = 172 ∧ ∃ blocks free, Sound 2 s blocks free := by
  have hfits : AllSteps (step 2) (SumFits 2) sampleInit sampleRun := by decide +kernel
  have hrun : ((exec (step 2) sampleInit sampleRun).map fun s => (s.heap.availableSize, s.heap.maxUsedSize)) =
      some (100, 172) := by decide +kernel
  obtain ⟨s, hs, hsizes⟩ := Option.map_eq_some_iff.mp hrun
  obtain ⟨havail, hmax⟩ := Prod.mk.inj hsizes
  exact ⟨s, hfits, hs, havail, hmax,
    (memheap_invariant (by decide) (by decide) (by decide) (by decide) (by decide) hfits hs).1⟩

/-- A block of 16 bytes is to become one of 4294967290: the sum wraps to 8, so that the block, now of less than no
bytes, is made larger in place. -/
theorem memheap_grows_past_end :
    ∃ s, exec (step 2) sampleInit [.alloc 16, .realloc 0x20000018 0xFFFFFFFA] = some s ∧
      ¬∃ blocks free, Sound 2 s blocks free := by
  have hrun : ((exec (step 2) sampleInit [.alloc 16, .realloc 0x20000018 0xFFFFFFFA]).map fun s =>
      (s.heap.startAddr, s.heap.next 0x20000000, s.live 0x20000018)) =
        some (0x20000000, 0x20000014, some 0xFFFFFFFA) := by decide +kernel
  obtain ⟨s, hs, hvalues⟩ := Option.map_eq_some_iff.mp hrun
  simp only [Prod.mk.injEq] at hvalues
  obtain ⟨hstart, hnext, hlive⟩ := hvalues
  refine ⟨s, hs, ?_⟩
  rintro ⟨blocks, free, hsound⟩
  have hmem : 0x20000000 ∈ blocks := List.mem_of_head? (hstart ▸ hsound.first)
  have hle := hsound.requested 0x20000000 hmem 0xFFFFFFFA hlive
  rw [hnext] at hle
  exact absurd hle (by decide)

end RtThread.Memory.MemHeap
