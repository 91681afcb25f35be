import RtThread.Memory.SlabCalls

/-!
# `rt_realloc` of the slab heap

In every run of the calls, with callers that write to their blocks, a change of size keeps the data: the chunk stays
where its size stays the same, and otherwise a new block is filled before the old one is freed.
-/

namespace RtThread.Memory.Slab

open RtThread.Lib.Bytes RtThread.Lib.Chain RtThread.Lib.Transition RtThread.Lib.Word RtThread.Memory.Pages

variable {h : Heap} {s s' : Pool} {v : View} {live : List ℕ} {other : Multiset ℕ} {z c p q n size : ℕ}

namespace Pool

/-- A new block with the first `n` bytes of the one at `ptr`, which is freed (`slab.c:703-708`, `slab.c:725-731`). -/
def moveBlock (s : Pool) (ptr size n : ℕ) : Option (Option ℕ × Pool) :=
  (s.rtMalloc size).bind fun x =>
    match x.1 with
    | none => some (none, x.2)
    | some nptr => ((x.2.rtMemcpy nptr ptr n).rtFree (some ptr)).map fun s => (some nptr, s)

/-- `rt_realloc` (`slab.c:678-735`). -/
def rtRealloc (s : Pool) (ptr : Option ℕ) (size : ℕ) : Option (Option ℕ × Pool) :=
  match ptr with
  | none => s.rtMalloc size
  | some ptr =>
    if size = 0 then (s.rtFree (some ptr)).map fun s => (none, s)
    else
      let kup := s.heap.memusage (ptr / pageSize)
      match kup.type with
      | .large =>
        let osize := kup.size * pageSize % 2 ^ 32
        s.moveBlock ptr size (if osize < size then osize else size)
      | .small =>
        let zone := s.heap.zone (ptr / pageSize - kup.size)
        if zone.zMagic = zallocSlabMagic then
          let size := (zoneindex size).2
          if zone.zChunksize = size then some (some ptr, s)
          else s.moveBlock ptr size (if zone.zChunksize < size then zone.zChunksize else size)
        else none
      | .free => some (none, s)

/-- `rt_system_heap_init` (`slab.c:344-395`); `m` is what the memory holds. -/
def rtSystemHeapInit (mem : ℕ → PageHead) (memusage : ℕ → MemUsage) (zone : ℕ → SlabZone) (cNext : ℕ → Option ℕ)
    (m : Mem) (beginAddr endAddr : ℕ) : Option Pool :=
  let heapStart := alignUp 12 beginAddr
  let heapEnd := endAddr / pageSize * pageSize
  if heapStart < heapEnd ∧ heapStart ≠ 0 then
    let limsize := heapEnd - heapStart
    let npages := limsize / pageSize
    let zoneSize := zoneSizeLoop limsize 2 zallocMinZoneSize
    let h : Heap :=
      { pages := ⟨heapStart / pageSize, heapStart / pageSize + npages, none, mem⟩
        zoneArray := fun _ => none
        zoneFree := none
        zoneFreeCnt := 0
        zoneSize := zoneSize
        zoneLimit := if zallocZoneLimit < zoneSize / 4 then zallocZoneLimit else zoneSize / 4
        zonePageCnt := zoneSize / pageSize
        memusage := memusage
        zone := zone
        cNext := cNext }
    ((⟨h, 0, m⟩ : Pool).rtPageFree (heapStart / pageSize) npages).bind fun s =>
      (s.rtPageAlloc (alignUp 12 (npages * 4) / pageSize)).bind fun x =>
        x.1.map fun table => { x.2 with table := table }
  else none

/-- What holds after every call. -/
def Keeps (s : Pool) (live : List ℕ) : Prop := ∃ other, Slab.Keeps other s.heap live ∧ Tabled s other

end Pool

/-! ### What is written to a block -/

theorem Good.free_apart (hg : Good h live v other) (hz : z ∈ v.zones) (hc : c ∈ v.chunks z) (hp : p ∈ live) :
    p + blockSize h p ≤ c ∨ c + 8 ≤ p := by
  have hok := hg.zone z hz
  obtain ⟨i, hi, hat⟩ := hok.chunk c hc
  have hcell : Cell h v c (h.zone z).zChunksize :=
    Or.inl ⟨z, hz, ⟨i, Nat.lt_of_le_of_lt hi hok.uindex, hat⟩, rfl⟩
  have hne : p ≠ c := by
    rintro rfl
    exact hg.not_free hz hp hc
  have hge := hg.cell_ge hcell
  have hapart := hg.cell_apart (hg.cell hp) hcell hne
  omega

theorem setBytes_keeps (hk : s.Keeps live) (hp : p ∈ live) {lo hi : ℕ} (hlo : p ≤ lo)
    (hhi : hi ≤ p + blockSize s.heap p) (m : Mem) : (s.setBytes lo hi m).Keeps live := by
  obtain ⟨other, ⟨v, hg, hthresh⟩, ht⟩ := hk
  refine ⟨other, ⟨v, hg.links fun z hz c hc => ?_, hthresh⟩, ht.pages, ht.bound⟩
  have hapart := hg.free_apart hz hc hp
  exact if_neg (by omega)

theorem setBytes_same (hg : Good s.heap live v other) (hp : p ∈ live) (hq : q ∈ live) (hne : q ≠ p) {lo hi : ℕ}
    (hlo : p ≤ lo) (hhi : hi ≤ p + blockSize s.heap p) {m : Mem} (hm : ∀ x, x < lo ∨ hi ≤ x → m x = s.mem x) :
    Same s (s.setBytes lo hi m) q := by
  have hapart := hg.cell_apart (hg.cell hp) (hg.cell hq) hne.symm
  refine ⟨rfl, rfl, rfl, fun _ => rfl, fun x hx => hm x ?_⟩
  have hlow := hx.1
  have hhigh := hx.2
  omega

/-! ### The calls on the bytes -/

theorem rtMalloc_pool (hk : s.Keeps live) (size : ℕ) :
    ∃ r s', s.rtMalloc size = some (r, s') ∧ s'.Keeps (hand live r) ∧ Leaves live s s' := by
  obtain ⟨other, hk, ht⟩ := hk
  obtain ⟨r, h', hmalloc, hk'⟩ := rtMalloc_keeps hk size
  obtain ⟨v, hg, -⟩ := hk
  have hheap := s.rtMalloc_heap size
  rw [hmalloc] at hheap
  obtain ⟨⟨r₁, s'⟩, hs', hpair⟩ := Option.map_eq_some_iff.mp hheap
  obtain ⟨rfl, rfl⟩ := Prod.mk.inj hpair
  have hleaves := rtMalloc_same hg ht hs'
  exact ⟨r₁, s', hs', ⟨other, hk', ht.leaves hleaves⟩, hleaves⟩

theorem rtFree_pool (hk : s.Keeps live) (hp : p ∈ live) :
    ∃ s', s.rtFree (some p) = some s' ∧ s'.Keeps (live.erase p) ∧ Leaves (live.erase p) s s' := by
  obtain ⟨other, hk, ht⟩ := hk
  obtain ⟨h', hfree, hk'⟩ := rtFree_keeps hk hp
  obtain ⟨v, hg, -⟩ := hk
  have hheap := s.rtFree_heap (some p)
  rw [hfree] at hheap
  obtain ⟨s', hs', rfl⟩ := Option.map_eq_some_iff.mp hheap
  have hleaves := rtFree_same hg ht hp hs'
  exact ⟨s', hs', ⟨other, hk', ht.leaves hleaves⟩, hleaves⟩

/-- The pointers that are handed out when the block at `p` was given up for the one at `r`. -/
def moved (live : List ℕ) (p : ℕ) (r : Option ℕ) : List ℕ := r.elim live fun q => q :: live.erase p

/-- The block at `p` is as before, or one of `size` bytes at least has taken its place with its first `n` bytes. -/
structure Moves (s s' : Pool) (live : List ℕ) (p size n : ℕ) (r : Option ℕ) : Prop where
  keeps : s'.Keeps (moved live p r)
  failed : r = none → Same s s' p
  size : ∀ q ∈ r, size ≤ blockSize s'.heap q
  data : ∀ q ∈ r, ∀ i < n, s'.mem (q + i) = s.mem (p + i)

theorem moveBlock_moves (hk : s.Keeps live) (hp : p ∈ live) (hlt : size < 2 ^ 32) (hold : n ≤ blockSize s.heap p)
    (hnew : n ≤ size) : ∃ r s', s.moveBlock p size n = some (r, s') ∧ Moves s s' live p size n r := by
  obtain ⟨r, s₁, hmalloc, hk₁, hl₁⟩ := rtMalloc_pool hk size
  rw [Pool.moveBlock, hmalloc, Option.bind_some]
  cases r with
  | none =>
    refine ⟨none, s₁, rfl, hk₁, fun _ => hl₁.same p hp, fun q hq => ?_, fun q hq => ?_⟩
    · cases hq
    · cases hq
  | some q =>
    change s₁.Keeps (q :: live) at hk₁
    have hsize : size ≤ blockSize s₁.heap q := by
      obtain ⟨other, ⟨v, hg, -⟩, -⟩ := hk
      have hheap := s.rtMalloc_heap size
      rw [hmalloc] at hheap
      exact rtMalloc_size hg hlt hheap.symm
    obtain ⟨hfresh, hk₂, hsame₂⟩ : q ∉ live ∧ (s₁.rtMemcpy q p n).Keeps (q :: live) ∧
        ∀ x ∈ live, Same s₁ (s₁.rtMemcpy q p n) x := by
      have hq : q ∈ q :: live := List.mem_cons_self
      have hk₂ : (s₁.rtMemcpy q p n).Keeps (q :: live) := setBytes_keeps hk₁ hq le_rfl (by omega) _
      obtain ⟨other, ⟨v, hg, -⟩, -⟩ := hk₁
      have hfresh := (List.nodup_cons.mp hg.live_nodup).1
      refine ⟨hfresh, hk₂, fun x hx => ?_⟩
      have hxq : x ≠ q := by
        rintro rfl
        exact hfresh hx
      exact setBytes_same hg hq (List.mem_cons_of_mem q hx) hxq le_rfl (by omega) fun y hy => if_neg (by omega)
    have hqp : q ≠ p := by
      rintro rfl
      exact hfresh hp
    obtain ⟨s₃, hfree, hk₃, hl₃⟩ := rtFree_pool hk₂ (List.mem_cons_of_mem q hp)
    rw [List.erase_cons_tail (by simpa using hqp)] at hk₃ hl₃
    have hkept := hl₃.same q List.mem_cons_self
    have hcopied : blockSize (s₁.rtMemcpy q p n).heap q = blockSize s₁.heap q := rfl
    refine ⟨some q, s₃, by simp only [hfree, Option.map_some], hk₃, fun hr => ?_, fun x hx => ?_, fun x hx i hi => ?_⟩
    · cases hr
    · cases hx
      rw [hkept.size]
      exact hsize
    · cases hx
      have hsrc := (hl₁.same p hp).bytes
      rw [hkept.bytes ⟨by omega, by omega⟩]
      change SmallMem.rtMemcpy s₁.mem q p n (q + i) = _
      rw [SmallMem.rtMemcpy, if_pos (by omega), Nat.add_sub_cancel_left]
      exact hsrc ⟨by omega, by omega⟩

theorem Moves.mono {r : Option ℕ} {size' n' : ℕ} (hm : Moves s s' live p size' n' r) (hsize : size ≤ size')
    (hn : n ≤ n') : Moves s s' live p size n r :=
  ⟨hm.keeps, hm.failed, fun q hq => hsize.trans (hm.size q hq), fun q hq i hi => hm.data q hq i (hi.trans_le hn)⟩

theorem Pool.Keeps.perm {live' : List ℕ} (hk : s.Keeps live) (hperm : live.Perm live') : s.Keeps live' := by
  obtain ⟨other, ⟨v, hg, hthresh⟩, ht⟩ := hk
  refine ⟨other, ⟨v, ⟨hg.config, hg.chains, hg.placed, hg.zone, hg.owned, ?_, fun r => ?_⟩, hthresh⟩, ht⟩
  · exact hperm.nodup_iff.mp hg.live_nodup
  · rw [← hperm.mem_iff]
    exact hg.live_iff r

theorem Good.large_lt (hg : Good s.heap live v other) (ht : Tabled s other) {x : ℕ × ℕ} (hx : x ∈ v.large) :
    x.2 * pageSize < 2 ^ 32 := by
  have hpos := (hg.owned.large x hx).1
  have hbound := ht.bound
  obtain ⟨rs, hinv⟩ := hg.owned.pages
  have hpage : x.1 + x.2 - 1 ∈ v.pages s.heap.zonePageCnt :=
    Multiset.mem_add.mpr (Or.inr (Multiset.mem_sum.mpr ⟨x, hx, mem_pagesFrom.mpr (by omega)⟩))
  have hlast := (hinv.mem_bounds (Multiset.mem_add.mpr (Or.inr hpage))).2
  have hle : x.2 * pageSize ≤ s.heap.pages.heapEnd * pageSize := by
    refine Nat.mul_le_mul_right _ ?_
    simp only at hlast
    omega
  omega

theorem zoneindex_ge (hpos : 0 < size) (hlt : size < 2 ^ 32) :
    size ≤ (zoneindex size).2 ∧ (zoneindex size).2 < 2 ^ 32 := by
  by_cases hsmall : size < 16384
  · have hx := zoneindex_spec hpos hsmall
    have hle := hx.le
    have hlimit := hx.limit
    omega
  · have hsame : (zoneindex size).2 = size := by
      rw [zoneindex, if_neg (by omega), if_neg (by omega), if_neg (by omega), if_neg hsmall]
    omega

theorem rtRealloc_moves (hk : s.Keeps live) (hp : p ∈ live) (hpos : 0 < size) (hlt : size < 2 ^ 32) :
    ∃ r s', s.rtRealloc (some p) size = some (r, s') ∧
      Moves s s' live p size (min (blockSize s.heap p) size) r := by
  obtain ⟨other, ⟨v, hg, hthresh⟩, ht⟩ := id hk
  simp only [Pool.rtRealloc, if_neg hpos.ne']
  rcases (hg.live_iff p).mp hp with ⟨z, hz, hheld⟩ | ⟨x, hx, rfl⟩
  · obtain ⟨hlow, hhigh⟩ := (hg.zone z hz).held_page hg.config.pages hheld
    have hkup := hg.owned.small z hz (p / pageSize - z) (by omega)
    rw [Nat.add_sub_cancel' hlow] at hkup
    obtain ⟨-, -, hsize⟩ := blockSize_chunk (hg.owned.small z hz) ⟨hlow, hhigh⟩
    obtain ⟨hge, hword⟩ := zoneindex_ge hpos hlt
    simp only [hkup, Nat.sub_sub_self hlow]
    rw [if_pos (hg.placed.magic z hz (hg.not_kept hz hheld))]
    split
    · -- the same chunk
      rename_i hsame
      refine ⟨some p, s, rfl, hk.perm (List.perm_cons_erase hp), fun hr => ?_, fun q hq => ?_, fun q hq i _ => ?_⟩
      · cases hr
      · cases hq
        rw [hsize, hsame]
        exact hge
      · cases hq
        rfl
    · obtain ⟨r, s', hmove, hm⟩ := @moveBlock_moves s live p _ _ hk hp hword
        (show (if (s.heap.zone z).zChunksize < (zoneindex size).2 then (s.heap.zone z).zChunksize
          else (zoneindex size).2) ≤ blockSize s.heap p by rw [hsize]; split <;> omega) (by split <;> omega)
      refine ⟨r, s', hmove, hm.mono hge ?_⟩
      rw [hsize]
      split <;> omega
  · obtain ⟨hkup, hsize⟩ := hg.large_block hx
    simp only [hkup, Nat.mod_eq_of_lt (hg.large_lt ht hx)]
    obtain ⟨r, s', hmove, hm⟩ := @moveBlock_moves s live (x.1 * pageSize) _ _ hk hp hlt
      (show (if x.2 * pageSize < size then x.2 * pageSize else size) ≤ blockSize s.heap (x.1 * pageSize) by
        rw [hsize]; split <;> omega) (by split <;> omega)
    refine ⟨r, s', hmove, hm.mono le_rfl ?_⟩
    rw [hsize]
    split <;> omega

/-! ### Runs -/

namespace Pool

/-- The memory of the heap, and the pointers that were handed out and not freed. -/
structure Sys where
  pool : Pool
  live : List ℕ

/-- `write` is a user who writes a byte of a block. -/
inductive Act where
  | malloc (size : ℕ)
  | free (ptr : Option ℕ)
  | realloc (ptr : Option ℕ) (size : ℕ)
  | write (ptr i : ℕ) (byte : BitVec 8)

def Act.Allowed (s : Sys) : Act → Prop
  | .malloc size => size < 2 ^ 32
  | .free ptr => ∀ p ∈ ptr, p ∈ s.live
  | .realloc ptr size => (∀ p ∈ ptr, p ∈ s.live) ∧ size < 2 ^ 32
  | .write ptr i _ => ptr ∈ s.live ∧ i < blockSize s.pool.heap ptr

instance (s : Sys) (ptr : Option ℕ) : Decidable (∀ p ∈ ptr, p ∈ s.live) :=
  match ptr with
  | none => isTrue fun p hp => by cases hp
  | some p => decidable_of_iff (p ∈ s.live) ⟨fun h q hq => by cases hq; exact h, fun h => h p rfl⟩

instance (s : Sys) : (a : Act) → Decidable (a.Allowed s)
  | .malloc _ => inferInstanceAs (Decidable (_ < _))
  | .free ptr => inferInstanceAs (Decidable (∀ p ∈ ptr, p ∈ s.live))
  | .realloc ptr _ => inferInstanceAs (Decidable ((∀ p ∈ ptr, p ∈ s.live) ∧ _ < _))
  | .write _ _ _ => inferInstanceAs (Decidable (_ ∈ _ ∧ _ < _))

/-- The pointers that are handed out after `rt_realloc` has returned `r`. -/
def resized (live : List ℕ) (ptr : Option ℕ) (size : ℕ) (r : Option ℕ) : List ℕ :=
  match ptr with
  | none => hand live r
  | some p => if size = 0 then live.erase p else moved live p r

def call (s : Sys) : Act → Option Sys
  | .malloc size => (s.pool.rtMalloc size).map fun x => ⟨x.2, hand s.live x.1⟩
  | .free ptr => (s.pool.rtFree ptr).map fun pool => ⟨pool, ptr.elim s.live s.live.erase⟩
  | .realloc ptr size => (s.pool.rtRealloc ptr size).map fun x => ⟨x.2, resized s.live ptr size x.1⟩
  | .write ptr i byte =>
    some { s with pool := s.pool.setBytes (ptr + i) (ptr + i + 1) (Function.update s.pool.mem (ptr + i) byte) }

def step (s : Sys) (a : Act) : Option Sys := if a.Allowed s then call s a else none

end Pool

theorem rtRealloc_pool (hk : s.Keeps live) {ptr : Option ℕ} (hp : ∀ p ∈ ptr, p ∈ live) (hlt : size < 2 ^ 32) :
    ∃ r s', s.rtRealloc ptr size = some (r, s') ∧ s'.Keeps (Pool.resized live ptr size r) := by
  cases ptr with
  | none =>
    obtain ⟨r, s', hmalloc, hk', -⟩ := rtMalloc_pool hk size
    exact ⟨r, s', hmalloc, hk'⟩
  | some p =>
    by_cases hzero : size = 0
    · obtain ⟨s', hfree, hk', -⟩ := rtFree_pool hk (hp p rfl)
      refine ⟨none, s', ?_, ?_⟩
      · simp only [Pool.rtRealloc, if_pos hzero, hfree, Option.map_some]
      · rw [Pool.resized, if_pos hzero]
        exact hk'
    · obtain ⟨r, s', hrealloc, hm⟩ := rtRealloc_moves hk (hp p rfl) (Nat.pos_of_ne_zero hzero) hlt
      refine ⟨r, s', hrealloc, ?_⟩
      rw [Pool.resized, if_neg hzero]
      exact hm.keeps

theorem Pool.step_keeps {t : Pool.Sys} {a : Pool.Act} (hk : t.pool.Keeps t.live) (ha : a.Allowed t) :
    ∃ t', Pool.step t a = some t' ∧ t'.pool.Keeps t'.live := by
  rw [Pool.step, if_pos ha]
  cases a with
  | malloc size =>
    obtain ⟨r, s', hmalloc, hk', -⟩ := rtMalloc_pool hk size
    exact ⟨_, by rw [Pool.call, hmalloc, Option.map_some], hk'⟩
  | free ptr =>
    cases ptr with
    | none => exact ⟨t, rfl, hk⟩
    | some p =>
      obtain ⟨s', hfree, hk', -⟩ := rtFree_pool hk (ha p rfl)
      exact ⟨_, by rw [Pool.call, hfree, Option.map_some], hk'⟩
  | realloc ptr size =>
    obtain ⟨r, s', hrealloc, hk'⟩ := rtRealloc_pool hk ha.1 ha.2
    exact ⟨_, by rw [Pool.call, hrealloc, Option.map_some], hk'⟩
  | write ptr i byte =>
    obtain ⟨hmem, hi⟩ := ha
    exact ⟨_, rfl, setBytes_keeps hk hmem (Nat.le_add_right ptr i) (by omega) _⟩

theorem Pool.init_keeps {mem : ℕ → PageHead} {memusage : ℕ → MemUsage} {zone : ℕ → SlabZone} {cNext : ℕ → Option ℕ}
    {m : Mem} {beginAddr endAddr : ℕ} (hend : endAddr < 2 ^ 32)
    (hinit : Pool.rtSystemHeapInit mem memusage zone cNext m beginAddr endAddr = some s) : s.Keeps [] := by
  simp only [Pool.rtSystemHeapInit, Option.ite_none_right_eq_some, Option.bind_eq_some_iff,
    Option.map_eq_some_iff] at hinit
  obtain ⟨⟨hbelow, -⟩, s₁, hfree, ⟨r, s₂⟩, halloc, table, rfl, rfl⟩ := hinit
  obtain ⟨pages, hpages, hs₁⟩ := Pool.rtPageFree_eq_some hfree
  obtain ⟨pages₂, hpages₂, hs₂⟩ := Pool.rtPageAlloc_eq_some halloc
  obtain ⟨heapStart, hstart⟩ : ∃ a, a = alignUp 12 beginAddr := ⟨_, rfl⟩
  obtain ⟨npages, hnpages⟩ : ∃ n, n = (endAddr / pageSize * pageSize - heapStart) / pageSize := ⟨_, rfl⟩
  rw [hs₁] at hpages₂ hs₂
  rw [← hstart] at hpages hpages₂ hs₂
  rw [← hnpages] at hpages hpages₂ hs₂
  have hle : endAddr / pageSize * pageSize ≤ endAddr := Nat.div_mul_le_self _ _
  rw [← hstart] at hbelow
  have hpage : (heapStart / pageSize + npages) * pageSize < 2 ^ 32 := by
    rw [pageSize_eq] at hbelow hnpages hle ⊢
    omega
  obtain ⟨b, t, rs, hsome, hinv, hlow, hhigh⟩ := init_table hpages (by rw [pageSize_eq] at hpage; omega)
  cases hsome.symm.trans hpages₂
  obtain ⟨hcnt, hroom, hlimit, hhalf⟩ :=
    sizes_spec (zoneSizeLoop_cases (endAddr / pageSize * pageSize - heapStart))
  refine ⟨pagesFrom table (alignUp 12 (npages * 4) / pageSize), ?_, fun i hi => mem_pagesFrom.mpr ?_, ?_⟩
  · rw [hs₂]
    exact fresh_keeps ⟨hcnt, hroom, hlimit, hhalf⟩ (fun _ => rfl) ⟨rfl, rfl⟩ hinv
  · rw [hs₂] at hi
    simp only [hlow, hhigh, Nat.add_sub_cancel_left] at hi
    have hwords := (@alignUp_spec 12 (npages * 4) (by rw [pageSize_eq] at hpage; omega)).1
    have hdvd : 4096 ∣ alignUp 12 (npages * 4) := dvd_alignUp 12 (npages * 4)
    change table ≤ table + 4 * i / pageSize ∧ table + 4 * i / pageSize < table + _
    rw [pageSize_eq]
    omega
  · rw [hs₂]
    simp only [hhigh]
    exact hpage

theorem Pool.exec_keeps {t t' : Pool.Sys} {acts : List Pool.Act} (hk : t.pool.Keeps t.live)
    (hrun : exec Pool.step t acts = some t') : t'.pool.Keeps t'.live := by
  refine exec_inv (fun t => t.pool.Keeps t.live) (fun t a t' ht hstep => ?_) hk hrun
  have ha : a.Allowed t := by
    by_contra hna
    rw [Pool.step, if_neg hna] at hstep
    cases hstep
  obtain ⟨t₁, ht₁, hk₁⟩ := Pool.step_keeps ht ha
  cases ht₁.symm.trans hstep
  exact hk₁

/-- The blocks that are handed out do not overlap. -/
def Apart (h : Heap) (live : List ℕ) : Prop :=
  ∀ p ∈ live, ∀ q ∈ live, p ≠ q → p + blockSize h p ≤ q ∨ q + blockSize h q ≤ p

theorem Pool.Keeps.sound (hk : s.Keeps live) : (∃ v table, Sound ⟨s.heap, live⟩ v table) ∧ Apart s.heap live := by
  obtain ⟨other, hk, -⟩ := hk
  obtain ⟨v, hv⟩ := @Slab.Keeps.sound other ⟨s.heap, live⟩ hk
  obtain ⟨w, hg, -⟩ := hk
  exact ⟨⟨v, other, hv⟩, fun p hp q hq hne => hg.cell_apart (hg.cell hp) (hg.cell hq) hne⟩

/-- In every run, `rt_realloc` of a block to a size other than 0 returns, without a failed assertion: a block with room
for the size and with the data of the old one, as far as both go, which is then handed out in its place; or null, and
the old block is still handed out and has its data. -/
theorem rtRealloc_keeps_data {mem : ℕ → PageHead} {memusage : ℕ → MemUsage} {zone : ℕ → SlabZone}
    {cNext : ℕ → Option ℕ} {m : Mem} {beginAddr endAddr : ℕ} (hend : endAddr < 2 ^ 32) {pool : Pool}
    (hinit : Pool.rtSystemHeapInit mem memusage zone cNext m beginAddr endAddr = some pool) {acts : List Pool.Act}
    {t : Pool.Sys} (hrun : exec Pool.step ⟨pool, []⟩ acts = some t) (hp : p ∈ t.live) (hpos : 0 < size)
    (hlt : size < 2 ^ 32) :
    ∃ r s', t.pool.rtRealloc (some p) size = some (r, s') ∧
      (∃ v table, Sound ⟨s'.heap, moved t.live p r⟩ v table) ∧ Apart s'.heap (moved t.live p r) ∧
      (∀ q ∈ r, size ≤ blockSize s'.heap q ∧
        ∀ i < min (blockSize t.pool.heap p) size, s'.mem (q + i) = t.pool.mem (p + i)) ∧
      (r = none → blockSize s'.heap p = blockSize t.pool.heap p ∧
        ∀ i < blockSize t.pool.heap p, s'.mem (p + i) = t.pool.mem (p + i)) := by
  have hk := Pool.exec_keeps (t := ⟨pool, []⟩) (Pool.init_keeps hend hinit) hrun
  obtain ⟨r, s', hrealloc, hm⟩ := rtRealloc_moves hk hp hpos hlt
  obtain ⟨hsound, hapart⟩ := hm.keeps.sound
  refine ⟨r, s', hrealloc, hsound, hapart, fun q hq => ⟨hm.size q hq, hm.data q hq⟩, fun hr => ?_⟩
  have hsame := hm.failed hr
  exact ⟨hsame.size, fun i hi => hsame.bytes ⟨Nat.le_add_right p i, Nat.add_lt_add_left hi p⟩⟩

def samplePool : Option Pool :=
  Pool.rtSystemHeapInit (fun _ => ⟨none, 0⟩) (fun _ => ⟨.free, 0⟩) (fun _ => ⟨0, 0, 0, none, 0, 0, 0, 0, none⟩)
    (fun _ => none) (fun _ => 0) 0x20000000 0x20080000

/-- Five pages with a byte of data become a chunk. -/
def reallocRun : List Pool.Act := [.malloc 20000, .write 0x20001000 3 7, .realloc (some 0x20001000) 100]

theorem rtRealloc_keeps_data_sample :
    ∃ pool t r s', samplePool = some pool ∧ exec Pool.step ⟨pool, []⟩ reallocRun = some t ∧
      t.pool.rtRealloc (some 0x20006028) 9000 = some (r, s') ∧
      (∀ q ∈ r, 9000 ≤ blockSize s'.heap q ∧
        ∀ i < min (blockSize t.pool.heap 0x20006028) 9000, s'.mem (q + i) = t.pool.mem (0x20006028 + i)) := by
  have hrun : (samplePool.bind fun pool => (exec Pool.step ⟨pool, []⟩ reallocRun).map Pool.Sys.live) =
      some [0x20006028] := by decide
  simp only [Option.bind_eq_some_iff, Option.map_eq_some_iff] at hrun
  obtain ⟨pool, hinit, t, ht, hlive⟩ := hrun
  have hmem : 0x20006028 ∈ t.live := by
    rw [hlive]
    exact List.mem_singleton_self _
  obtain ⟨r, s', hrealloc, -, -, hdata, -⟩ :=
    @rtRealloc_keeps_data 0x20006028 9000 _ _ _ _ _ _ _ (by decide) _ hinit _ _ ht hmem (by decide) (by decide)
  exact ⟨pool, t, r, s', hinit, ht, hrealloc, hdata⟩

end RtThread.Memory.Slab
