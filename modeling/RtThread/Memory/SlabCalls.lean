import RtThread.Memory.SlabContent

/-!
# What `rt_malloc` and `rt_free` of the slab heap leave alone

The blocks that stay in use keep their bytes, and a block that is handed out has as many bytes as were asked for.
-/

namespace RtThread.Memory.Slab

open RtThread.Lib.Chain RtThread.Lib.Runs RtThread.Lib.Word RtThread.Memory.Pages

variable {h h' : Heap} {s s' : Pool} {v : View} {live : List ℕ} {other : Multiset ℕ} {z zi c q n size : ℕ}
variable {r : Option ℕ}

/-! ### Pages -/

theorem Good.taken (hg : Good h live v (other + pagesFrom z n)) {p : ℕ} (hp : z ≤ p ∧ p < z + n) :
    p ∉ v.pages h.zonePageCnt ∧ h.pages.heapStart ≤ p ∧ p < h.pages.heapEnd := by
  obtain ⟨rs, hinv⟩ := hg.owned.pages
  have hmem : p ∈ other + pagesFrom z n := Multiset.mem_add.mpr (Or.inr (mem_pagesFrom.mpr hp))
  exact ⟨fun hview => hg.owned.disjoint hview hmem, hinv.mem_bounds (Multiset.mem_add.mpr (Or.inl hmem))⟩

theorem Good.free_off (hg : Good h live v other) :
    ∃ rs, Listed h.pages rs ∧ ∀ p ∈ points rs, p ∉ v.pages h.zonePageCnt := by
  obtain ⟨rs, hinv⟩ := hg.owned.pages
  exact ⟨rs, hinv.listed, fun p hp hview => hinv.not_mem_points (Multiset.mem_add.mpr (Or.inr hview)) hp⟩

/-- `rt_page_alloc` leaves the blocks alone, and the pages it takes are among the other ones then. -/
theorem reserve_same (hg : Good s.heap live v other) (halloc : s.rtPageAlloc n = some (r, s')) :
    Via (Spared live s) s s' ∧ ∃ pages, s'.heap = { s.heap with pages := pages } ∧
      ∀ z ∈ r, ∀ memusage, AgreesOff z n s.heap.memusage memusage →
        Good { s.heap with pages := pages, memusage := memusage } live v (other + pagesFrom z n) := by
  obtain ⟨rs, hlisted, hoff⟩ := hg.free_off
  refine ⟨(rtPageAlloc_via hlisted halloc).mono fun a ha => spared_inPages hg hoff ha, ?_⟩
  obtain ⟨pages, hpages, hheap⟩ := Pool.rtPageAlloc_eq_some halloc
  refine ⟨pages, hheap, fun z hz memusage hagrees => ?_⟩
  cases hz
  have hn : 0 < n := by
    by_contra hzero
    rw [Pages.rtPageAlloc, if_pos (Nat.eq_zero_of_not_pos hzero)] at hpages
    cases hpages
  rcases hg.reserve hn with hnone | ⟨b, pages', hsome, hgood⟩
  · rw [hnone] at hpages
    cases hpages
  · rw [hsome] at hpages
    cases hpages
    exact hgood memusage hagrees

theorem release_same (hg : Good s.heap live v (other + pagesFrom z n)) (hn : 0 < n) {s₁ : Pool}
    (hpages : s₁.heap.pages = s.heap.pages) (hfree : s₁.rtPageFree z n = some s') :
    Via (Spared live s) s₁ s' := by
  obtain ⟨rs, hlisted, hoff⟩ := hg.free_off
  rw [← hpages] at hlisted
  refine (rtPageFree_via hlisted hfree).mono fun a ha => spared_inPages hg (fun p hp => ?_) ha
  rcases hp with hp | rfl
  · exact hoff p hp
  · exact (hg.taken (by omega)).1

theorem marks_same (hg : Good s.heap live v (other + pagesFrom z n)) (ht : Tabled s other) (value : ℕ → MemUsage)
    (s₁ : Pool) : Via (Spared live s) s₁ (Pool.markLoop value z n s₁) := by
  refine markLoop_via fun i hi q hq => ?_
  obtain ⟨hoff, hlow, hhigh⟩ := @Good.taken _ _ _ _ _ _ hg (z + i) (by omega)
  exact spares_memusage hg hq (ht.add _) hlow hhigh hoff _

/-! ### `rt_malloc` -/

theorem initZone_same (hg : Good s.heap live v (other + pagesFrom z n)) (hn : 0 < n) :
    Via (Spared live s) s (s.initZone zi size z).2 := by
  have hoff := (hg.taken ⟨le_rfl, Nat.lt_add_of_pos_right hn⟩).1
  refine Via.trans (Via.one fun q hq => ?_) (Via.one fun q _ => spares_zoneArray _ _)
  exact spares_newZone hg hq hoff _

theorem newZone_same (hg : Good s.heap live v other) (ht : Tabled s other)
    (hnew : s.newZone zi size = some (r, s')) : Leaves live s s' := by
  have hlinked := hg.chains.kept
  rw [Pool.newZone] at hnew
  cases hfree : s.heap.zoneFree with
  | some z =>
    rw [hfree] at hnew hlinked
    cases hnew
    obtain ⟨l, hl, -⟩ := hlinked.exists_cons
    have hstatic : Via (Spared live s) s ((s.assign (.zoneFree (s.heap.zone z).zNext)).assign
        (.zoneFreeCnt (s.heap.zoneFreeCnt - 1))) :=
      (Via.one fun q _ => spares_zoneFree _).assign fun q _ => spares_zoneFreeCnt _
    exact hstatic.leaves.trans (initZone_same (hg.unkeep hl).1 hg.config.cnt_pos).leaves
  | none =>
    rw [hfree] at hnew
    simp only [Option.map_eq_some_iff] at hnew
    obtain ⟨⟨r₁, s₁⟩, halloc, hx⟩ := hnew
    obtain ⟨hvia, pages, hheap, hgood⟩ := reserve_same hg halloc
    cases r₁ with
    | none =>
      cases hx
      exact hvia.leaves
    | some z =>
      cases hx
      rw [hg.config.div_eq] at hgood
      have hg₁ : Good s₁.heap live v (other + pagesFrom z s.heap.zonePageCnt) := by
        rw [hheap]
        exact hgood z rfl s.heap.memusage fun p _ => rfl
      have hmarks := marks_same hg₁ (ht.leaves hvia.leaves) (fun off => ⟨.small, off⟩) s₁
      have hg₂ : Good (Pool.markLoop (fun off => ⟨.small, off⟩) z s.heap.zonePageCnt s₁).heap live v
          (other + pagesFrom z s.heap.zonePageCnt) := by
        rw [Pool.markLoop_heap, hheap]
        exact hgood z rfl _ (agreesOff_markLoop _ z _ _)
      exact (hvia.leaves.trans hmarks.leaves).trans (initZone_same hg₂ hg.config.cnt_pos).leaves

theorem mallocLarge_same (hg : Good s.heap live v other) (ht : Tabled s other)
    (hmalloc : s.mallocLarge size = some (r, s')) : Leaves live s s' := by
  simp only [Pool.mallocLarge, Option.map_eq_some_iff] at hmalloc
  obtain ⟨⟨r₁, s₁⟩, halloc, hx⟩ := hmalloc
  obtain ⟨hvia, pages, hheap, hgood⟩ := reserve_same hg halloc
  cases r₁ with
  | none =>
    cases hx
    exact hvia.leaves
  | some z =>
    cases hx
    have hg₁ : Good s₁.heap live v (other + pagesFrom z (alignUp 12 size / pageSize)) := by
      rw [hheap]
      exact hgood z rfl s.heap.memusage fun p _ => rfl
    have hn : 0 < alignUp 12 size / pageSize := by
      by_contra hzero
      rw [Pool.rtPageAlloc, if_pos (Nat.eq_zero_of_not_pos hzero)] at halloc
      cases halloc
    obtain ⟨hoff, hlow, hhigh⟩ := @Good.taken _ _ _ _ _ _ hg₁ z (by omega)
    have hmark : Via (Spared live s₁) s₁ (s₁.assign (.memusage z ⟨.large, alignUp 12 size / pageSize⟩)) :=
      Via.one fun q hq => spares_memusage hg₁ hq ((ht.leaves hvia.leaves).add _) hlow hhigh hoff _
    exact hvia.leaves.trans hmark.leaves

theorem Good.mem_zones (hg : Good h live v other) (hhead : h.zoneArray zi = some z) : z ∈ v.zones := by
  have hlinked := hg.chains.array zi
  rw [hhead] at hlinked
  obtain ⟨l, hl, -⟩ := hlinked.exists_cons
  exact ((hg.placed.mem_array zi z).mp (by rw [hl]; exact List.mem_cons_self)).1

theorem lessFree_zone : ∃ nfree next, (lessFree h zi z).zone z = { h.zone z with zNfree := nfree, zNext := next } ∧
    (lessFree h zi z).memusage = h.memusage := by
  unfold lessFree
  simp only
  split
  · exact ⟨_, _, zone_setZone_self, rfl⟩
  · exact ⟨_, _, zone_setZone_self, rfl⟩

theorem takeChunk_same (hg : Good s.heap live v other) (hz : z ∈ v.zones) {p : ℕ}
    (htake : (s.lessFree zi z).takeChunk size z = some (p, s')) : Leaves live s s' := by
  have hless : Via (Spared live s) s (s.lessFree zi z) := by
    unfold Pool.lessFree
    simp only
    split
    · exact (Via.one fun q _ => spares_zoneArray _ _).assign fun q hq => spares_zone hg hq hz rfl
    · exact Via.one fun q hq => spares_zone hg hq hz rfl
  have hchunk : ((s.lessFree zi z).heap.zone z).zChunksize = (s.heap.zone z).zChunksize := by
    obtain ⟨nfree, next, hzone, -⟩ := @lessFree_zone s.heap z zi
    rw [Pool.lessFree_heap, hzone]
  simp only [Pool.takeChunk] at htake
  split at htake
  · cases htake
    refine (hless.assign fun q hq => spares_zone hg hq hz ?_).leaves
    exact hchunk
  · obtain ⟨x, -, hx⟩ := Option.map_eq_some_iff.mp htake
    cases hx
    refine (hless.assign fun q hq => spares_zone hg hq hz ?_).leaves
    exact hchunk

theorem rtMalloc_same (hg : Good s.heap live v other) (ht : Tabled s other)
    (hmalloc : s.rtMalloc size = some (r, s')) : Leaves live s s' := by
  rw [Pool.rtMalloc] at hmalloc
  split at hmalloc
  · cases hmalloc
    exact Leaves.refl live s
  · split at hmalloc
    · exact mallocLarge_same hg ht hmalloc
    · simp only at hmalloc
      split at hmalloc
      · cases hhead : s.heap.zoneArray (zoneindex size).1 with
        | none =>
          rw [hhead] at hmalloc
          exact newZone_same hg ht hmalloc
        | some z =>
          rw [hhead] at hmalloc
          simp only at hmalloc
          split at hmalloc
          · obtain ⟨y, htake, hy⟩ := Option.map_eq_some_iff.mp hmalloc
            cases hy
            exact takeChunk_same hg (hg.mem_zones hhead) htake
          · cases hmalloc
      · cases hmalloc

/-! ### `rt_free` -/

theorem giveChunk_same (hg : Good s.heap live v other) (hz : z ∈ v.zones) (hc : c ∈ live) :
    Via (Spared (live.erase c) s) s (s.giveChunk z c) := by
  have hkept : ∀ q ∈ live.erase c, q ∈ live ∧ c ≠ q := by
    intro q hq
    obtain ⟨hne, hmem⟩ := hg.live_nodup.mem_erase_iff.mp hq
    exact ⟨hmem, hne.symm⟩
  have hlink : Spared (live.erase c) s (.cNext c (s.heap.zone z).zFreechunk) := by
    intro q hq
    exact spares_cNext hg (hkept q hq).1 hc (hkept q hq).2 _
  unfold Pool.giveChunk
  simp only
  split
  · refine ((Via.one hlink).assign fun q hq => ?_).assign fun q _ => spares_zoneArray _ _
    exact spares_zone hg (hkept q hq).1 hz rfl
  · refine (Via.one hlink).assign fun q hq => ?_
    exact spares_zone hg (hkept q hq).1 hz rfl

/-- The loop ends with an assignment to the head of the list or to the link of a zone of the list. -/
theorem unlinkLoop_setLink {l : List ℕ} {pz : Option ℕ} (fuel : ℕ) (hl : Linked s.heap.next (s.heap.link zi pz) l)
    (hmem : ∀ b ∈ l, b ∈ v.zones) (hpz : ∀ b ∈ pz, b ∈ v.zones) (hloop : s.unlinkLoop zi z fuel pz = some s') :
    ∃ pz' : Option ℕ, (∀ b ∈ pz', b ∈ v.zones) ∧ s' = s.setLink zi pz' (s.heap.zone z).zNext := by
  induction fuel generalizing pz l with
  | zero => cases hloop
  | succ fuel ih =>
    rw [Pool.unlinkLoop] at hloop
    cases hlink : s.heap.link zi pz with
    | none =>
      rw [hlink] at hloop
      cases hloop
    | some b =>
      rw [hlink] at hloop hl
      rw [Option.bind_some] at hloop
      obtain ⟨l', rfl, hnext⟩ := hl.exists_cons
      split at hloop
      · cases hloop
        exact ⟨pz, hpz, rfl⟩
      · change Linked s.heap.next (s.heap.link zi (some b)) l' at hnext
        refine ih hnext (fun x hx => hmem x (List.mem_cons_of_mem b hx)) (fun x hx => ?_) hloop
        cases hx
        exact hmem b List.mem_cons_self

theorem unlink_keep_same (hg : Good s.heap live v other) (hz : z ∈ v.zones)
    (hloop : s.unlinkLoop zi z n none = some s') : Via (Spared live s) s (s'.keepZone z) := by
  have hl : Linked s.heap.next (s.heap.link zi none) (v.array zi) := hg.chains.array zi
  obtain ⟨pz, hpz, rfl⟩ := unlinkLoop_setLink n hl (fun b hb => ((hg.placed.mem_array zi b).mp hb).1)
    (fun b hb => by cases hb) hloop
  have hset : Via (Spared live s) s (s.setLink zi pz (s.heap.zone z).zNext) := by
    cases pz with
    | none => exact Via.one fun q _ => spares_zoneArray _ _
    | some b => exact Via.one fun q hq => spares_zone hg hq (hpz b rfl) rfl
  have hchunk : ((s.setLink zi pz (s.heap.zone z).zNext).heap.zone z).zChunksize = (s.heap.zone z).zChunksize := by
    obtain ⟨next, hnext⟩ := (@relinked_setLink s.heap zi pz (s.heap.zone z).zNext).zone z
    rw [Pool.setLink_heap, hnext]
  have hkeep : Via (Spared live s) s ((s.setLink zi pz (s.heap.zone z).zNext).assign (.zone z
      { (s.setLink zi pz (s.heap.zone z).zNext).heap.zone z with
        zMagic := -1, zNext := (s.setLink zi pz (s.heap.zone z).zNext).heap.zoneFree })) := by
    refine hset.assign fun q hq => spares_zone hg hq hz ?_
    exact hchunk
  exact (hkeep.assign fun q _ => spares_zoneFree _).assign fun q _ => spares_zoneFreeCnt _

theorem releaseZone_same (hg : Good s.heap live v other) (ht : Tabled s other) (hrel : s.releaseZone = some s')
    : Leaves live s s' := by
  have hlinked := hg.chains.kept
  rw [Pool.releaseZone] at hrel
  split at hrel
  · obtain ⟨z, hfree, hrel⟩ := Option.bind_eq_some_iff.mp hrel
    rw [hfree] at hlinked
    obtain ⟨l, hl, -⟩ := hlinked.exists_cons
    simp only [hg.config.div_eq] at hrel
    obtain ⟨s₁, hs₁⟩ : ∃ s₁ : Pool, s₁ = (s.assign (.zoneFree (s.heap.zone z).zNext)).assign
        (.zoneFreeCnt (s.heap.zoneFreeCnt - 1)) := ⟨_, rfl⟩
    rw [← hs₁] at hrel
    have hstatic : Via (Spared live s) s s₁ := by
      rw [hs₁]
      exact (Via.one fun q _ => spares_zoneFree _).assign fun q _ => spares_zoneFreeCnt _
    have hg₁ : Good s₁.heap live { v with zones := v.zones.erase z, kept := l }
        (other + pagesFrom z s.heap.zonePageCnt) := by
      rw [hs₁]
      exact (hg.unkeep hl).1
    have hcnt : s₁.heap.zonePageCnt = s.heap.zonePageCnt := by
      rw [hs₁]
      rfl
    rw [hcnt] at hrel
    have hmarks := marks_same hg₁ (ht.leaves hstatic.leaves) (fun _ => ⟨.free, 0⟩) s₁
    have hpages := release_same hg₁ hg.config.cnt_pos (by rw [Pool.markLoop_heap]) hrel
    exact hstatic.leaves.trans (hmarks.trans hpages).leaves
  · cases hrel
    exact Leaves.refl live s

theorem freeChunk_same (hg : Good s.heap live v other) (ht : Tabled s other) (hz : z ∈ v.zones)
    (hheld : Held (s.heap.zone z) (v.chunks z) c) (hc : c ∈ live) (hfree : s.freeChunk z c = some s') :
    Leaves (live.erase c) s s' := by
  have hgive := (giveChunk_same hg hz hc).leaves
  obtain ⟨v₁, hg₁, hzones, hkept⟩ := hg.give hz hheld
  rw [← Pool.giveChunk_heap] at hg₁
  simp only [Pool.freeChunk] at hfree
  split at hfree
  · rename_i hfull
    obtain ⟨s₂, hloop, hrel⟩ := Option.bind_eq_some_iff.mp hfree
    have hkeep := (unlink_keep_same hg₁ (hzones ▸ hz) hloop).leaves
    obtain ⟨h₂, v₂, hloop₂, hg₂, -⟩ := hg₁.keep (hzones ▸ hz) (hkept ▸ hg.not_kept hz hheld) hfull.1
    have hheap := (s.giveChunk z c).unlinkLoop_heap ((s.giveChunk z c).heap.zone z).zZoneindex z
      (s.giveChunk z c).heap.pages.fuel none
    rw [hloop, hloop₂, Option.map_some, Option.some.injEq] at hheap
    rw [← hheap, ← Pool.keepZone_heap] at hg₂
    exact (hgive.trans hkeep).trans (releaseZone_same hg₂ ((ht.leaves hgive).leaves hkeep) hrel)
  · cases hfree
    exact hgive

theorem rtFree_same (hg : Good s.heap live v other) (ht : Tabled s other) (hc : c ∈ live)
    (hfree : s.rtFree (some c) = some s') : Leaves (live.erase c) s s' := by
  simp only [Pool.rtFree] at hfree
  rcases (hg.live_iff c).mp hc with ⟨z, hz, hheld⟩ | ⟨x, hx, rfl⟩
  · obtain ⟨hsmall, hzone, -⟩ :=
      blockSize_chunk (hg.owned.small z hz) ((hg.zone z hz).held_page hg.config.pages hheld)
    rw [if_neg hsmall] at hfree
    split at hfree
    · change s.freeChunk (zoneOf s.heap c) c = some s' at hfree
      rw [hzone] at hfree
      exact freeChunk_same hg ht hz hheld hc hfree
    · cases hfree
  · have hkup := (hg.large_block hx).1
    have hpage : x.1 * pageSize / pageSize = x.1 := Nat.mul_div_cancel _ (by decide)
    rw [hkup, if_pos rfl, if_pos (Nat.mul_mod_left _ _), hpage] at hfree
    have hg₁ := hg.dropLarge hx
    have hpos := (hg.owned.large x hx).1
    obtain ⟨hoff, hlow, hhigh⟩ := @Good.taken _ _ _ _ _ _ hg₁ x.1 (by omega)
    have hzero : Via (Spared (live.erase (x.1 * pageSize)) s) s (s.assign (.memusage x.1 ⟨.large, 0⟩)) :=
      Via.one fun q hq => spares_memusage hg₁ hq (ht.add _) hlow hhigh hoff _
    have hpages : Via (Spared (live.erase (x.1 * pageSize)) s) (s.assign (.memusage x.1 ⟨.large, 0⟩)) s' :=
      release_same hg₁ hpos rfl hfree
    exact (hzero.trans hpages).leaves

/-! ### The block that is handed out -/

theorem takeChunk_size (hg : Good h live v other) (hhead : h.zoneArray zi = some z)
    (htake : takeChunk (lessFree h zi z) (chunkSizeOf zi) z = some (q, h')) : blockSize h' q = chunkSizeOf zi := by
  have hz := hg.mem_zones hhead
  have hok := hg.zone z hz
  have hsize : chunkSizeOf zi = (h.zone z).zChunksize := by
    have hlinked := hg.chains.array zi
    rw [hhead] at hlinked
    obtain ⟨l, hl, -⟩ := hlinked.exists_cons
    rw [hok.size, ((hg.placed.mem_array zi z).mp (by rw [hl]; exact List.mem_cons_self)).2.1]
  obtain ⟨nfree, next, hzone, husage⟩ := @lessFree_zone h z zi
  have hcnt : (lessFree h zi z).zonePageCnt = h.zonePageCnt := by
    unfold lessFree
    simp only
    split <;> rfl
  -- the chunk is one of the zone, whose header says the same of the chunks
  have hfinish : ∀ i < (h.zone z).zNmax, ∀ header : SlabZone, header.zChunksize = (h.zone z).zChunksize →
      blockSize ((lessFree h zi z).setZone z header) ((h.zone z).chunkAt i) = chunkSizeOf zi := by
    intro i hi header hheader
    have hmarked : Marked ((lessFree h zi z).setZone z header) z := by
      intro j hj
      change j < (lessFree h zi z).zonePageCnt at hj
      rw [hcnt] at hj
      change (lessFree h zi z).memusage (z + j) = _
      rw [husage]
      exact hg.owned.small z hz j hj
    have hpage := hok.page hg.config.pages hi
    rw [← hcnt] at hpage
    rw [(blockSize_chunk hmarked hpage).2.2, zone_setZone_self, hheader, hsize]
  simp only [takeChunk, hzone] at htake
  split at htake
  · rename_i hmore
    cases htake
    have huindex := hok.uindex
    have hchunk := hfinish ((h.zone z).zUindex + 1) (by omega)
      { h.zone z with zNfree := nfree, zNext := next, zUindex := (h.zone z).zUindex + 1 } rfl
    rw [SlabZone.chunkAt, ← hsize] at hchunk
    exact hchunk
  · obtain ⟨x, hx, hxq⟩ := Option.map_eq_some_iff.mp htake
    cases hxq
    have hlinked := hok.linked
    change (h.zone z).zFreechunk = some q at hx
    rw [hx] at hlinked
    obtain ⟨l, hl, -⟩ := hlinked.exists_cons
    obtain ⟨i, hi, hat⟩ := hok.chunk q (by rw [hl]; exact List.mem_cons_self)
    rw [hat]
    exact hfinish i (Nat.lt_of_le_of_lt hi hok.uindex) _ rfl

theorem initZone_size (hc : Config h) (hmarked : Marked h z) (hzi : zi < nzones)
    (hsize : 4 * chunkSizeOf zi ≤ h.zoneSize) :
    blockSize (initZone h zi (chunkSizeOf zi) z).2 (initZone h zi (chunkSizeOf zi) z).1 = chunkSizeOf zi := by
  have hok := @initZone_ok h z zi hc hzi hsize (h.zoneArray zi)
  have hpage := hok.page hc.pages (Nat.zero_lt_of_lt hok.room)
  have hzone : (initZone h zi (chunkSizeOf zi) z).2.zone z = _ := zone_setZone_self
  have hmarked' : Marked (initZone h zi (chunkSizeOf zi) z).2 z := hmarked
  exact (blockSize_chunk hmarked' hpage).2.2.trans (by rw [hzone])

theorem marked_markLoop (pages : PageHeap) (z : ℕ) :
    Marked { h with
      pages := pages, memusage := markLoop (fun off => ⟨.small, off⟩) z h.zonePageCnt h.memusage } z := by
  intro i hi
  change i < h.zonePageCnt at hi
  simp only [markLoop_apply]
  rw [if_pos (by omega), Nat.add_sub_cancel_left]

theorem newZone_size (hg : Good h live v other) (hzi : zi < nzones) (hsize : 4 * chunkSizeOf zi ≤ h.zoneSize)
    (hnew : newZone h zi (chunkSizeOf zi) = some (some q, h')) : blockSize h' q = chunkSizeOf zi := by
  have hlinked := hg.chains.kept
  rw [newZone] at hnew
  cases hfree : h.zoneFree with
  | some z =>
    rw [hfree] at hnew hlinked
    cases hnew
    obtain ⟨l, hl, -⟩ := hlinked.exists_cons
    obtain ⟨hg', hmarked⟩ := hg.unkeep hl
    have hmarked' : Marked { h with zoneFree := (h.zone z).zNext, zoneFreeCnt := h.zoneFreeCnt - 1 } z := hmarked
    exact initZone_size hg'.config hmarked' hzi hsize
  | none =>
    rw [hfree] at hnew
    simp only [Option.map_eq_some_iff] at hnew
    obtain ⟨⟨r, pages⟩, halloc, hx⟩ := hnew
    cases r with
    | none => cases hx
    | some z =>
      cases hx
      have hc : Config { h with
          zoneFree := none, pages := pages
          memusage := markLoop (fun off => ⟨.small, off⟩) z h.zonePageCnt h.memusage } :=
        ⟨hg.config.pages, hg.config.room, hg.config.limit, hg.config.half⟩
      have hmarked := @marked_markLoop { h with zoneFree := none } pages z
      exact initZone_size hc hmarked hzi hsize

theorem mallocLarge_size (hlt : size < 2 ^ 32) (hmalloc : mallocLarge h size = some (some q, h')) :
    size ≤ blockSize h' q := by
  simp only [mallocLarge, Option.map_eq_some_iff] at hmalloc
  obtain ⟨⟨r, pages⟩, halloc, hx⟩ := hmalloc
  cases r with
  | none => cases hx
  | some b =>
    cases hx
    have hpage : b * pageSize / pageSize = b := Nat.mul_div_cancel _ (by decide)
    rw [@blockSize_large _ _ (alignUp 12 size / pageSize) (by rw [hpage]; exact Function.update_self ..)]
    by_cases hwrap : 2 ^ 32 ≤ size + (2 ^ 12 - 1)
    · -- no page is asked for
      rw [alignUp_wrap hlt hwrap (by decide), Nat.zero_div, Pages.rtPageAlloc, if_pos rfl] at halloc
      cases halloc
    · obtain ⟨hle, -⟩ := @alignUp_spec 12 size (by omega)
      have hdvd : pageSize ∣ alignUp 12 size := dvd_alignUp 12 size
      rw [Nat.div_mul_cancel hdvd]
      exact hle

theorem rtMalloc_size (hg : Good h live v other) (hlt : size < 2 ^ 32)
    (hmalloc : rtMalloc h size = some (some q, h')) : size ≤ blockSize h' q := by
  rw [rtMalloc] at hmalloc
  split at hmalloc
  · cases hmalloc
  · rename_i hzero
    split at hmalloc
    · exact mallocLarge_size hlt hmalloc
    · rename_i hlimit
      have hmax := hg.config.limit
      have hx := @zoneindex_spec size (by omega) (by omega)
      have hfour := hg.config.four_mul_le hx (by omega)
      have hle := hx.le
      simp only [if_pos hx.index, hx.size] at hmalloc
      rw [hx.size] at hle
      cases hhead : h.zoneArray (zoneindex size).1 with
      | none =>
        rw [hhead] at hmalloc
        rw [newZone_size hg hx.index hfour hmalloc]
        exact hle
      | some z =>
        rw [hhead] at hmalloc
        simp only at hmalloc
        split at hmalloc
        · obtain ⟨y, htake, hy⟩ := Option.map_eq_some_iff.mp hmalloc
          cases hy
          rw [takeChunk_size hg hhead htake]
          exact hle
        · cases hmalloc

end RtThread.Memory.Slab
