import RtThread.Memory.SlabLists

/-!
# What the calls of the slab allocator do

`Good` ties the zones, their lists, the pages and the pointers that were handed out together. Each step of
`rt_malloc` and `rt_free` keeps it; a zone that is on its way has its pages among the other ones.
-/

namespace RtThread.Memory.Slab

open RtThread.Lib.Chain RtThread.Lib.Runs RtThread.Memory.Pages

/-- The sizes that `rt_system_heap_init` finds. -/
structure Config (h : Heap) : Prop where
  pages : h.zonePageCnt * pageSize = h.zoneSize
  room : 32768 ≤ h.zoneSize
  limit : h.zoneLimit ≤ 16384
  half : h.zoneSize < 65536 → h.zoneLimit ≤ 8192

/-- The pages of the zones and of the large blocks. -/
def View.pages (v : View) (cnt : ℕ) : Multiset ℕ :=
  ∑ z ∈ v.zones, pagesFrom z cnt + ∑ x ∈ v.large, pagesFrom x.1 x.2

/-- The pages of the zone `z` say where it begins. -/
def Marked (h : Heap) (z : ℕ) : Prop := ∀ i < h.zonePageCnt, h.memusage (z + i) = ⟨.small, i⟩

structure Owned (h : Heap) (v : View) (other : Multiset ℕ) : Prop where
  pages : ∃ rs, Pages.Inv ⟨h.pages, other + v.pages h.zonePageCnt⟩ rs
  small : ∀ z ∈ v.zones, Marked h z
  large : ∀ x ∈ v.large, 0 < x.2 ∧ h.memusage x.1 = ⟨.large, x.2⟩

structure Good (h : Heap) (live : List ℕ) (v : View) (other : Multiset ℕ) : Prop where
  config : Config h
  chains : Chains h v
  placed : Placed h v
  zone : ∀ z ∈ v.zones, ZoneOk h.zoneSize h.cNext z (h.zone z) (v.chunks z)
  owned : Owned h v other
  live_nodup : live.Nodup
  live_iff : ∀ r, r ∈ live ↔
    (∃ z ∈ v.zones, Held (h.zone z) (v.chunks z) r) ∨ ∃ x ∈ v.large, r = x.1 * pageSize

variable {h h' : Heap} {v v' : View} {live : List ℕ} {other : Multiset ℕ} {z zi c : ℕ}

theorem Config.frame (hc : Config h) (hf : Frame h h') : Config h' := by
  constructor
  · rw [hf.zonePageCnt, hf.zoneSize]
    exact hc.pages
  · rw [hf.zoneSize]
    exact hc.room
  · rw [hf.zoneLimit]
    exact hc.limit
  · rw [hf.zoneSize, hf.zoneLimit]
    exact hc.half

theorem Config.div_eq (hc : Config h) : h.zoneSize / pageSize = h.zonePageCnt := by
  rw [← hc.pages]
  exact Nat.mul_div_cancel _ (by decide)

theorem Config.cnt_pos (hc : Config h) : 0 < h.zonePageCnt := by
  have hpages := hc.pages
  have hroom := hc.room
  by_contra hzero
  rw [Nat.eq_zero_of_not_pos hzero] at hpages
  omega

/-! ### Pages -/

theorem Owned.frame (ho : Owned h v other) (hf : Frame h h') (hzones : v'.zones = v.zones) (hlarge : v'.large = v.large) :
    Owned h' v' other := by
  have hpages : v'.pages h'.zonePageCnt = v.pages h.zonePageCnt := by
    rw [View.pages, View.pages, hzones, hlarge, hf.zonePageCnt]
  constructor
  · rw [hf.pages, hpages]
    exact ho.pages
  · intro z hz i hi
    rw [hf.zonePageCnt] at hi
    rw [hf.memusage]
    exact ho.small z (hzones ▸ hz) i hi
  · rw [hlarge, hf.memusage]
    exact ho.large

theorem Owned.nodup (ho : Owned h v other) : (other + v.pages h.zonePageCnt).Nodup := by
  obtain ⟨rs, hinv⟩ := ho.pages
  have hall : ((points rs : Multiset ℕ) + (other + v.pages h.zonePageCnt)).Nodup := by
    rw [hinv.pages]
    exact List.nodup_range'
  exact (Multiset.nodup_add.mp hall).2.1

theorem not_mem_of_nodup_sum {ι : Type*} [DecidableEq ι] {s : Finset ι} {f : ι → Multiset ℕ} (h : (∑ i ∈ s, f i).Nodup)
    {i j : ι} (hi : i ∈ s) (hj : j ∈ s) (hne : j ≠ i) {p : ℕ} (hp : p ∈ f i) : p ∉ f j := by
  rw [← Finset.add_sum_erase s f hi] at h
  intro hmem
  refine Multiset.disjoint_left.mp (Multiset.nodup_add.mp h).2.2 hp ?_
  exact Multiset.mem_sum.mpr ⟨j, Finset.mem_erase.mpr ⟨hne, hj⟩, hmem⟩

theorem mem_zone_pages {cnt p : ℕ} (hz : z ∈ v.zones) (hp : z ≤ p ∧ p < z + cnt) : p ∈ ∑ z ∈ v.zones, pagesFrom z cnt :=
  Multiset.mem_sum.mpr ⟨z, hz, mem_pagesFrom.mpr hp⟩

/-- A page of a zone is in no other zone and in no large block, and it is none of the other pages. -/
theorem Owned.apart (ho : Owned h v other) (hz : z ∈ v.zones) {p : ℕ} (hp : z ≤ p ∧ p < z + h.zonePageCnt) :
    (∀ w ∈ v.zones, w ≤ p ∧ p < w + h.zonePageCnt → w = z) ∧ (∀ x ∈ v.large, ¬(x.1 ≤ p ∧ p < x.1 + x.2)) ∧
      p ∉ other := by
  have hnodup := ho.nodup
  rw [View.pages] at hnodup
  obtain ⟨-, hview, hother⟩ := Multiset.nodup_add.mp hnodup
  obtain ⟨hzones, -, hlarge⟩ := Multiset.nodup_add.mp hview
  refine ⟨fun w hw hpw => ?_, fun x hx hpx => ?_, fun hmem => ?_⟩
  · by_contra hne
    exact not_mem_of_nodup_sum hzones hz hw hne (mem_pagesFrom.mpr hp) (mem_pagesFrom.mpr hpw)
  · refine Multiset.disjoint_left.mp hlarge (mem_zone_pages hz hp) ?_
    exact Multiset.mem_sum.mpr ⟨x, hx, mem_pagesFrom.mpr hpx⟩
  · exact Multiset.disjoint_left.mp hother hmem (Multiset.mem_add.mpr (Or.inl (mem_zone_pages hz hp)))

theorem Owned.apart_large (ho : Owned h v other) {x y : ℕ × ℕ} (hx : x ∈ v.large) (hy : y ∈ v.large)
    (hp : x.1 = y.1) : x = y := by
  have hnodup := ho.nodup
  rw [View.pages] at hnodup
  obtain ⟨-, hview, -⟩ := Multiset.nodup_add.mp hnodup
  obtain ⟨-, hlarge, -⟩ := Multiset.nodup_add.mp hview
  have hxpos := (ho.large x hx).1
  have hypos := (ho.large y hy).1
  by_contra hne
  exact not_mem_of_nodup_sum hlarge hy hx hne (mem_pagesFrom.mpr (show y.1 ≤ y.1 ∧ _ by omega))
    (mem_pagesFrom.mpr (by omega))

/-! ### Pointers -/

theorem Good.live_of_page (hg : Good h live v other) (hz : z ∈ v.zones)
    (hp : z ≤ c / pageSize ∧ c / pageSize < z + h.zonePageCnt) : c ∈ live ↔ Held (h.zone z) (v.chunks z) c := by
  obtain ⟨hzones, hlarge, -⟩ := hg.owned.apart hz hp
  rw [hg.live_iff]
  constructor
  · rintro (⟨w, hw, hheld⟩ | ⟨x, hx, rfl⟩)
    · rwa [hzones w hw ((hg.zone w hw).held_page hg.config.pages hheld)] at hheld
    · rw [Nat.mul_div_cancel _ (by decide)] at hp hlarge
      have hpos := (hg.owned.large x hx).1
      exact absurd ⟨le_rfl, by omega⟩ (hlarge x hx)
  · exact fun hheld => Or.inl ⟨z, hz, hheld⟩

theorem held_add (hz : z ∈ v.zones)
    (hother : ∀ w ∈ v.zones, w ≠ z → h'.zone w = h.zone w ∧ v'.chunks w = v.chunks w)
    (hself : ∀ r, Held (h'.zone z) (v'.chunks z) r ↔ r = c ∨ Held (h.zone z) (v.chunks z) r) (r : ℕ) :
    (∃ w ∈ v.zones, Held (h'.zone w) (v'.chunks w) r) ↔ r = c ∨ ∃ w ∈ v.zones, Held (h.zone w) (v.chunks w) r := by
  constructor
  · rintro ⟨w, hw, hheld⟩
    by_cases hwz : w = z
    · rw [hwz] at hheld
      exact ((hself r).mp hheld).imp id fun hold => ⟨z, hz, hold⟩
    · rw [(hother w hw hwz).1, (hother w hw hwz).2] at hheld
      exact Or.inr ⟨w, hw, hheld⟩
  · rintro (rfl | ⟨w, hw, hheld⟩)
    · exact ⟨z, hz, (hself r).mpr (Or.inl rfl)⟩
    · by_cases hwz : w = z
      · rw [hwz] at hheld
        exact ⟨z, hz, (hself r).mpr (Or.inr hheld)⟩
      · refine ⟨w, hw, ?_⟩
        rw [(hother w hw hwz).1, (hother w hw hwz).2]
        exact hheld

theorem held_drop (hz : z ∈ v.zones)
    (hother : ∀ w ∈ v.zones, w ≠ z → h'.zone w = h.zone w ∧ v'.chunks w = v.chunks w)
    (hself : ∀ r, Held (h'.zone z) (v'.chunks z) r ↔ r ≠ c ∧ Held (h.zone z) (v.chunks z) r)
    (honly : ∀ w ∈ v.zones, w ≠ z → ¬Held (h.zone w) (v.chunks w) c) (r : ℕ) :
    (∃ w ∈ v.zones, Held (h'.zone w) (v'.chunks w) r) ↔ r ≠ c ∧ ∃ w ∈ v.zones, Held (h.zone w) (v.chunks w) r := by
  constructor
  · rintro ⟨w, hw, hheld⟩
    by_cases hwz : w = z
    · rw [hwz] at hheld
      exact ((hself r).mp hheld).imp id fun hold => ⟨z, hz, hold⟩
    · rw [(hother w hw hwz).1, (hother w hw hwz).2] at hheld
      refine ⟨?_, w, hw, hheld⟩
      rintro rfl
      exact honly w hw hwz hheld
  · rintro ⟨hr, w, hw, hheld⟩
    by_cases hwz : w = z
    · rw [hwz] at hheld
      exact ⟨z, hz, (hself r).mpr ⟨hr, hheld⟩⟩
    · refine ⟨w, hw, ?_⟩
      rw [(hother w hw hwz).1, (hother w hw hwz).2]
      exact hheld

/-! ### A chunk of a zone with free chunks -/

theorem samePlace_refl (zone : SlabZone) : zone.SamePlace zone := ⟨rfl, rfl, rfl, rfl⟩

theorem Placed.setData (hp : Placed h v) {zone : SlabZone} (hsame : (h.zone z).SamePlace zone) :
    Placed (h.setZone z zone) v := by
  obtain ⟨hindex, hnfree, hnmax, hmagic⟩ := hsame
  refine hp.change z (fun w hw => ⟨?_, Iff.rfl, Iff.rfl, fun _ => Iff.rfl⟩) (fun zi => ?_) (fun hz => ?_) fun hz hk => ?_
  · rw [zone_setZone_of_ne hw]
    exact samePlace_refl _
  · rw [zone_setZone_self, hindex, hnfree]
    exact hp.mem_array zi z
  · rw [zone_setZone_self, hnfree, hnmax]
    exact hp.mem_kept z hz
  · rw [zone_setZone_self, hmagic]
    exact hp.magic z hz hk

theorem lessFree_spec (hc : Chains h v) (hp : Placed h v) {l : List ℕ} (hl : v.array zi = z :: l) :
    ∃ next array, (lessFree h zi z).zone =
        Function.update h.zone z { h.zone z with zNfree := (h.zone z).zNfree - 1, zNext := next } ∧
      Chains (lessFree h zi z) { v with array := array } ∧ Placed (lessFree h zi z) { v with array := array } ∧
      Frame h (lessFree h zi z) ∧ (lessFree h zi z).cNext = h.cNext := by
  have hmem : z ∈ v.array zi := by
    rw [hl]
    exact List.mem_cons_self
  obtain ⟨hz, hindex, hpos, hkept⟩ := (hp.mem_array zi z).mp hmem
  have hnodup := hc.array_nodup zi
  rw [hl] at hnodup
  unfold lessFree
  simp only
  split
  · rename_i hzero
    refine ⟨none, Function.update v.array zi l, rfl, hc.pop hp hl, ?_, ⟨rfl, rfl, rfl, rfl, rfl⟩, rfl⟩
    refine hp.change z (fun w hw => ⟨?_, Iff.rfl, Iff.rfl, fun zj => ?_⟩) (fun zj => ?_) (fun hk => absurd hk hkept)
      fun _ _ => ?_
    · rw [zone_setZone_of_ne hw]
      exact samePlace_refl _
    · exact mem_update_list (by rw [hl, List.mem_cons, or_iff_right hw]) zj
    · rw [zone_setZone_self]
      simp only [hzero]
      refine iff_of_false (fun hmem => ?_) fun hpos => absurd hpos.2.2.1 (Nat.lt_irrefl 0)
      have hnot : z ∈ l ↔ False := iff_of_false (List.nodup_cons.mp hnodup).1 id
      exact ((mem_update_list_self hnot (hp.other ‹_›).2 zj).mp hmem).2
    · rw [zone_setZone_self]
      exact hp.magic z hz hkept
  · rename_i hzero
    refine ⟨(h.zone z).zNext, v.array, rfl, hc.setData rfl, ?_, ⟨rfl, rfl, rfl, rfl, rfl⟩, rfl⟩
    refine hp.change z (fun w hw => ⟨?_, Iff.rfl, Iff.rfl, fun _ => Iff.rfl⟩) (fun zj => ?_) (fun hk => absurd hk hkept)
      fun _ _ => ?_
    · rw [zone_setZone_of_ne hw]
      exact samePlace_refl _
    · rw [zone_setZone_self, hp.mem_array zj z]
      simp only [hpos, Nat.pos_of_ne_zero hzero]
    · rw [zone_setZone_self]
      exact hp.magic z hz hkept

theorem Chains.withChunks (hc : Chains h v) (chunks : ℕ → List ℕ) : Chains h { v with chunks := chunks } :=
  ⟨hc.array, hc.array_nodup, hc.kept, hc.kept_nodup, hc.kept_cnt⟩

theorem Placed.withChunks (hp : Placed h v) (chunks : ℕ → List ℕ) : Placed h { v with chunks := chunks } :=
  ⟨hp.mem_array, hp.mem_kept, hp.magic⟩

theorem Good.rewrite (hg : Good h live v other) {zone : SlabZone} {array : ℕ → List ℕ}
    {chunks live' : List ℕ} (hzone : ∀ w, w ≠ z → h'.zone w = h.zone w) (hself : h'.zone z = zone)
    (hc : Chains h' { v with array := array }) (hp : Placed h' { v with array := array }) (hf : Frame h h')
    (hok : ZoneOk h.zoneSize h'.cNext z zone chunks)
    (hother : ∀ w ∈ v.zones, w ≠ z → ZoneOk h.zoneSize h'.cNext w (h.zone w) (v.chunks w)) (hnodup : live'.Nodup)
    (hlive : ∀ r, r ∈ live' ↔ (∃ w ∈ v.zones, Held (h'.zone w) (Function.update v.chunks z chunks w) r) ∨
      ∃ x ∈ v.large, r = x.1 * pageSize) :
    Good h' live' { v with array := array, chunks := Function.update v.chunks z chunks } other := by
  refine ⟨hg.config.frame hf, hc.withChunks _, hp.withChunks _, fun w hw => ?_, hg.owned.frame hf rfl rfl, hnodup, hlive⟩
  rw [hf.zoneSize]
  by_cases hwz : w = z
  · rw [hwz, hself]
    simp only [Function.update_self]
    exact hok
  · rw [hzone w hwz]
    simp only [Function.update_of_ne hwz]
    exact hother w hw hwz

theorem Good.add (hg : Good h live v other) (hz : z ∈ v.zones) {zone : SlabZone} {array : ℕ → List ℕ} {chunks : List ℕ}
    (hzone : ∀ w, w ≠ z → h'.zone w = h.zone w) (hself : h'.zone z = zone)
    (hc : Chains h' { v with array := array }) (hp : Placed h' { v with array := array }) (hf : Frame h h')
    (hnext : h'.cNext = h.cNext) (hok : ZoneOk h.zoneSize h.cNext z zone chunks)
    (hheld : ∀ r, Held zone chunks r ↔ r = c ∨ Held (h.zone z) (v.chunks z) r)
    (hnot : ¬Held (h.zone z) (v.chunks z) c) :
    Good h' (c :: live) { v with array := array, chunks := Function.update v.chunks z chunks } other := by
  have hpage := hok.held_page hg.config.pages ((hheld c).mpr (Or.inl rfl))
  have hfresh : c ∉ live := fun hmem => hnot ((hg.live_of_page hz hpage).mp hmem)
  refine hg.rewrite hzone hself hc hp hf (hnext ▸ hok) (fun w hw _ => hnext ▸ hg.zone w hw)
    (List.nodup_cons.mpr ⟨hfresh, hg.live_nodup⟩) fun r => ?_
  rw [List.mem_cons, hg.live_iff, ← or_assoc]
  refine or_congr_left ?_
  refine (@held_add h h' v { v with chunks := Function.update v.chunks z chunks } z c hz (fun w hw hwz => ?_) ?_ r).symm
  · exact ⟨hzone w hwz, Function.update_of_ne hwz _ _⟩
  · simp only [hself, Function.update_self]
    exact hheld

theorem Good.take (hg : Good h live v other) (hhead : h.zoneArray zi = some z) :
    0 < (h.zone z).zNfree ∧ ∃ r h' v', takeChunk (lessFree h zi z) (chunkSizeOf zi) z = some (r, h') ∧
      Good h' (r :: live) v' other ∧ v'.kept = v.kept := by
  have hlinked := hg.chains.array zi
  rw [hhead] at hlinked
  obtain ⟨l, hl, -⟩ := hlinked.exists_cons
  obtain ⟨hz, hindex, hpos, hkept⟩ := (hg.placed.mem_array zi z).mp (by rw [hl]; exact List.mem_cons_self)
  have hok := hg.zone z hz
  have hsize : chunkSizeOf zi = (h.zone z).zChunksize := by rw [hok.size, hindex]
  obtain ⟨next, array, hzone, hc, hp, hf, hnext⟩ := lessFree_spec hg.chains hg.placed hl
  have hself : (lessFree h zi z).zone z = { h.zone z with zNfree := (h.zone z).zNfree - 1, zNext := next } := by
    rw [hzone, Function.update_self]
  -- whichever chunk it is, it is added to those that are handed out
  have hfinish : ∀ zone chunks c, zone.zZoneindex = (h.zone z).zZoneindex → zone.zNfree = (h.zone z).zNfree - 1 →
      zone.zNmax = (h.zone z).zNmax → zone.zMagic = (h.zone z).zMagic → zone.zNext = next →
      ZoneOk h.zoneSize h.cNext z zone chunks → (∀ r, Held zone chunks r ↔ r = c ∨ Held (h.zone z) (v.chunks z) r) →
      ¬Held (h.zone z) (v.chunks z) c → Good ((lessFree h zi z).setZone z zone) (c :: live)
        { v with array := array, chunks := Function.update v.chunks z chunks } other := by
    intro zone chunks c hzi hnfree hnmax hmagic hzn hok' hheld hnot
    refine hg.add hz (fun w hw => ?_) zone_setZone_self (hc.setData ?_) (hp.setData ?_) (hf.trans frame_setZone) hnext hok'
      hheld hnot
    · rw [zone_setZone_of_ne hw, hzone, Function.update_of_ne hw]
    · rw [hself]
      exact hzn
    · rw [hself]
      exact ⟨hzi, hnfree, hnmax, hmagic⟩
  refine ⟨hpos, ?_⟩
  unfold takeChunk
  simp only [hself, hnext]
  split
  · rename_i hmore
    obtain ⟨hok', hheld, hnot⟩ := hok.fresh hmore
    rw [hsize]
    exact ⟨_, _, _, rfl, hfinish _ _ _ rfl rfl rfl rfl rfl (hok'.relink _ next) hheld hnot, rfl⟩
  · -- all chunks have been used, so that one of them is free
    rename_i hmore
    have hnfree := hok.nfree
    obtain ⟨c, cs, hcs⟩ : ∃ c cs, v.chunks z = c :: cs := by
      refine List.exists_cons_of_ne_nil fun hnil => ?_
      rw [hnil, List.length_nil] at hnfree
      omega
    rw [hcs] at hok
    obtain ⟨hok', hheld, hnot⟩ := hok.pop
    rw [← hcs] at hheld hnot
    rw [hok.linked.1, Option.map_some]
    exact ⟨_, _, _, rfl, hfinish _ _ _ rfl rfl rfl rfl rfl (hok'.relink _ next) hheld hnot, rfl⟩

/-! ### A chunk is given back -/

/-- `giveChunk` on a zone that is not kept: with its first free chunk it comes into the list of its index. -/
theorem giveChunk_spec (hc : Chains h v) (hp : Placed h v) (hz : z ∈ v.zones) (hkept : z ∉ v.kept) :
    ∃ next array, (giveChunk h z c).zone = Function.update h.zone z
        { h.zone z with zFreechunk := some c, zNfree := (h.zone z).zNfree + 1, zNext := next } ∧
      Chains (giveChunk h z c) { v with array := array } ∧ Placed (giveChunk h z c) { v with array := array } ∧
      Frame h (giveChunk h z c) ∧ (giveChunk h z c).cNext = Function.update h.cNext c (h.zone z).zFreechunk := by
  have hmagic := hp.magic z hz hkept
  obtain ⟨g, hg⟩ : ∃ g : Heap, g = { h with cNext := Function.update h.cNext c (h.zone z).zFreechunk } := ⟨_, rfl⟩
  have hzone : g.zone = h.zone := by rw [hg]
  have hcg : Chains g v := by
    rw [hg]
    exact ⟨hc.array, hc.array_nodup, hc.kept, hc.kept_nodup, hc.kept_cnt⟩
  have hpg : Placed g v := by
    rw [hg]
    exact ⟨hp.mem_array, hp.mem_kept, hp.magic⟩
  have hframe : Frame h g := by
    rw [hg]
    exact ⟨rfl, rfl, rfl, rfl, rfl⟩
  have hnext : g.cNext = Function.update h.cNext c (h.zone z).zFreechunk := by rw [hg]
  unfold giveChunk
  simp only [← hg]
  split
  · rename_i hzero
    have hout : ∀ zi, z ∉ v.array zi := by
      intro zi hmem
      have := ((hp.mem_array zi z).mp hmem).2.2.1
      omega
    refine ⟨h.zoneArray (h.zone z).zZoneindex,
      Function.update v.array (h.zone z).zZoneindex (z :: v.array (h.zone z).zZoneindex), ?_,
      hcg.push hout hkept (by rw [hg]), ?_, hframe.trans ⟨rfl, rfl, rfl, rfl, rfl⟩, hnext⟩
    · rw [← hzone]
      rfl
    refine hpg.change z (fun w hw => ⟨?_, Iff.rfl, Iff.rfl, fun zj => ?_⟩) (fun zj => ?_) (fun hk => absurd hk hkept)
      fun _ _ => ?_
    · show (g.zone w).SamePlace ((g.setZone z _).zone w)
      rw [zone_setZone_of_ne hw]
      exact samePlace_refl _
    · exact mem_update_list (by rw [List.mem_cons, or_iff_right hw]) zj
    · show _ ↔ z ∈ v.zones ∧ ((g.setZone z _).zone z).zZoneindex = zj ∧ 0 < ((g.setZone z _).zone z).zNfree ∧ z ∉ v.kept
      rw [zone_setZone_self]
      have hmem : z ∈ z :: v.array (h.zone z).zZoneindex ↔ True := iff_of_true List.mem_cons_self trivial
      rw [mem_update_list_self hmem (fun zk _ => hout zk) zj]
      simp [hz, hkept]
    · show ((g.setZone z _).zone z).zMagic = _
      rw [zone_setZone_self]
      exact hmagic
  · rename_i hpos
    refine ⟨(h.zone z).zNext, v.array, ?_, hcg.setData ?_, ?_, hframe.trans frame_setZone, hnext⟩
    · rw [← hzone]
      rfl
    · rw [hzone]
    refine hpg.change z (fun w hw => ⟨?_, Iff.rfl, Iff.rfl, fun _ => Iff.rfl⟩) (fun zj => ?_) (fun hk => absurd hk hkept)
      fun _ _ => ?_
    · rw [zone_setZone_of_ne hw]
      exact samePlace_refl _
    · rw [zone_setZone_self, hp.mem_array zj z]
      simp only [Nat.succ_pos, Nat.pos_of_ne_zero hpos]
    · rw [zone_setZone_self]
      exact hmagic

theorem Good.not_kept (hg : Good h live v other) (hz : z ∈ v.zones) (hheld : Held (h.zone z) (v.chunks z) c) :
    z ∉ v.kept := fun hk => (hg.zone z hz).not_held (hg.placed.mem_kept z hk).2 hheld

theorem Good.give (hg : Good h live v other) (hz : z ∈ v.zones) (hheld : Held (h.zone z) (v.chunks z) c) :
    ∃ v', Good (giveChunk h z c) (live.erase c) v' other ∧ v'.zones = v.zones ∧ v'.kept = v.kept := by
  have hok := hg.zone z hz
  have hpage := hok.held_page hg.config.pages hheld
  obtain ⟨hzones, hlarge, -⟩ := hg.owned.apart hz hpage
  obtain ⟨next, array, hzone, hc, hp, hf, hnext⟩ := giveChunk_spec (c := c) hg.chains hg.placed hz (hg.not_kept hz hheld)
  obtain ⟨hok', hdrop⟩ := hok.push hheld
  have hself := congrFun hzone z
  rw [Function.update_self] at hself
  have hkeep : ∀ w, w ≠ z → (giveChunk h z c).zone w = h.zone w := by
    intro w hw
    rw [hzone, Function.update_of_ne hw]
  refine ⟨_, hg.rewrite hkeep hself hc hp hf (hnext ▸ hok'.relink _ next) (fun w hw hwz => ?_)
    (hg.live_nodup.erase c) fun r => ?_, rfl, rfl⟩
  · rw [hnext]
    refine (hg.zone w hw).frame (fun hmem => hwz ?_) _
    exact hzones w hw ((hg.zone w hw).chunk_page hg.config.pages hmem)
  · have hlarge' : ∀ x ∈ v.large, x.1 * pageSize ≠ c := by
      rintro x hx rfl
      rw [Nat.mul_div_cancel _ (by decide)] at hlarge
      have hpos := (hg.owned.large x hx).1
      exact hlarge x hx ⟨le_rfl, by omega⟩
    have hdropped := @held_drop h (giveChunk h z c) v { v with chunks := Function.update v.chunks z (c :: v.chunks z) } z c hz
      (fun w _ hwz => ⟨hkeep w hwz, Function.update_of_ne hwz _ _⟩) (by
        simp only [hself, Function.update_self]
        exact hdrop)
      (fun w hw hwz hheld' => hwz (hzones w hw ((hg.zone w hw).held_page hg.config.pages hheld'))) r
    rw [hg.live_nodup.mem_erase_iff, hg.live_iff, and_or_left]
    refine or_congr hdropped.symm ⟨fun hx => hx.2, fun hx => ⟨?_, hx⟩⟩
    obtain ⟨x, hx, rfl⟩ := hx
    exact hlarge' x hx

/-! ### A wholly free zone is kept -/

theorem Good.length_le (hg : Good h live v other) (zi : ℕ) : (v.array zi).length ≤ h.pages.fuel := by
  obtain ⟨rs, hinv⟩ := hg.owned.pages
  have hsub : v.array zi ⊆ List.range' h.pages.heapStart (h.pages.heapEnd - h.pages.heapStart) := by
    intro z hz
    have hzone := ((hg.placed.mem_array zi z).mp hz).1
    have hcnt := hg.config.cnt_pos
    have hpage : z ∈ other + v.pages h.zonePageCnt :=
      Multiset.mem_add.mpr (Or.inr (Multiset.mem_add.mpr (Or.inl (mem_zone_pages hzone ⟨le_rfl, by omega⟩))))
    have hbounds := hinv.mem_bounds hpage
    simp only at hbounds
    exact List.mem_range'_1.mpr (by omega)
  have hle := (List.subperm_of_subset (hg.chains.array_nodup zi) hsub).length_le
  rw [List.length_range'] at hle
  exact Nat.le_succ_of_le hle

theorem Good.keep (hg : Good h live v other) (hz : z ∈ v.zones) (hkept : z ∉ v.kept)
    (hfull : (h.zone z).zNfree = (h.zone z).zNmax) :
    ∃ h' v', unlinkLoop h (h.zone z).zZoneindex z h.pages.fuel none = some h' ∧ Good (keepZone h' z) live v' other ∧
      v'.kept = z :: v.kept := by
  have hroom := (hg.zone z hz).room
  have hmem : z ∈ v.array (h.zone z).zZoneindex := (hg.placed.mem_array _ z).mpr ⟨hz, rfl, by omega, hkept⟩
  obtain ⟨hother, hothers⟩ := hg.placed.other hmem
  obtain ⟨h', l, hloop, hc, hperm, hrelinked⟩ := hg.chains.unlink hg.placed hmem (hg.length_le _)
  have hnot : z ∈ l ↔ False :=
    iff_of_false (List.nodup_cons.mp (hperm.nodup_iff.mp (hg.chains.array_nodup _))).1 id
  have hout : ∀ zj, z ∉ Function.update v.array (h.zone z).zZoneindex l zj :=
    fun zj hzj => ((mem_update_list_self hnot hothers zj).mp hzj).2
  obtain ⟨x, hx⟩ := hrelinked.zone z
  have hself : (keepZone h' z).zone z = { h.zone z with zMagic := -1, zNext := h'.zoneFree } := by
    have hkeep : (keepZone h' z).zone z = { h'.zone z with zMagic := -1, zNext := h'.zoneFree } := zone_setZone_self
    rw [hkeep, hx]
  have hothers' : ∀ w, w ≠ z → (keepZone h' z).zone w = h'.zone w := fun w hw => zone_setZone_of_ne hw
  have hframe : Frame h (keepZone h' z) := hrelinked.frame.trans ⟨rfl, rfl, rfl, rfl, rfl⟩
  have hdata : ∀ w, ∃ magic next, (keepZone h' z).zone w = { h.zone w with zMagic := magic, zNext := next } := by
    intro w
    by_cases hw : w = z
    · rw [hw]
      exact ⟨_, _, hself⟩
    · obtain ⟨y, hy⟩ := hrelinked.zone w
      rw [hothers' w hw, hy]
      exact ⟨_, _, rfl⟩
  refine ⟨h', { v with array := Function.update v.array (h.zone z).zZoneindex l, kept := z :: v.kept }, hloop,
    ⟨hg.config.frame hframe, hc.keep hout hkept, ?_, fun w hw => ?_, hg.owned.frame hframe rfl rfl, hg.live_nodup,
      fun r => ?_⟩, rfl⟩
  · refine hg.placed.change z (fun w hw => ⟨?_, Iff.rfl, ?_, fun zj => ?_⟩) (fun zj => ?_) (fun _ => ⟨hz, ?_⟩)
      fun _ hk => absurd List.mem_cons_self hk
    · obtain ⟨y, hy⟩ := hrelinked.zone w
      rw [hothers' w hw, hy]
      exact samePlace_refl _
    · rw [List.mem_cons, or_iff_right hw]
    · exact mem_update_list (by rw [hperm.mem_iff, List.mem_cons, or_iff_right hw]) zj
    · exact iff_of_false (hout zj) fun hk => hk.2.2.2 List.mem_cons_self
    · rw [hself]
      exact hfull
  · obtain ⟨m, y, hy⟩ := hdata w
    rw [hy, hframe.zoneSize, show (keepZone h' z).cNext = h.cNext from hrelinked.cNext]
    exact (hg.zone w hw).relink m y
  · rw [hg.live_iff]
    refine or_congr_left (exists_congr fun w => and_congr_right fun _ => ?_)
    obtain ⟨m, y, hy⟩ := hdata w
    rw [hy]
    exact Iff.rfl

/-! ### Pages come and go -/

theorem mem_large_pages {x : ℕ × ℕ} {cnt : ℕ} (hx : x ∈ v.large) (hpos : 0 < x.2) : x.1 ∈ v.pages cnt :=
  Multiset.mem_add.mpr (Or.inr (Multiset.mem_sum.mpr ⟨x, hx, mem_pagesFrom.mpr (by omega)⟩))

theorem Owned.disjoint (ho : Owned h v other) {p : ℕ} (hp : p ∈ v.pages h.zonePageCnt) : p ∉ other :=
  fun hmem => Multiset.disjoint_left.mp (Multiset.nodup_add.mp ho.nodup).2.2 hmem hp

theorem Good.live_page (hg : Good h live v other) (hc : c ∈ live) : c / pageSize ∈ v.pages h.zonePageCnt := by
  rcases (hg.live_iff c).mp hc with ⟨z, hz, hheld⟩ | ⟨x, hx, rfl⟩
  · exact Multiset.mem_add.mpr (Or.inl (mem_zone_pages hz ((hg.zone z hz).held_page hg.config.pages hheld)))
  · rw [Nat.mul_div_cancel _ (by decide)]
    exact mem_large_pages hx (hg.owned.large x hx).1

theorem Good.setPages (hg : Good h live v other) {pages : PageHeap} {memusage : ℕ → MemUsage} {other' : Multiset ℕ}
    {rs : List (ℕ × ℕ)} (hinv : Pages.Inv ⟨pages, other' + v.pages h.zonePageCnt⟩ rs)
    (hsame : ∀ p ∈ v.pages h.zonePageCnt, memusage p = h.memusage p) :
    Good { h with pages := pages, memusage := memusage } live v other' := by
  refine ⟨⟨hg.config.pages, hg.config.room, hg.config.limit, hg.config.half⟩, ?_, ?_, hg.zone,
    ⟨⟨rs, hinv⟩, fun z hz i hi => ?_, fun x hx => ?_⟩, hg.live_nodup, hg.live_iff⟩
  · exact ⟨hg.chains.array, hg.chains.array_nodup, hg.chains.kept, hg.chains.kept_nodup, hg.chains.kept_cnt⟩
  · exact ⟨hg.placed.mem_array, hg.placed.mem_kept, hg.placed.magic⟩
  · change i < h.zonePageCnt at hi
    have hp : z + i ∈ v.pages h.zonePageCnt :=
      Multiset.mem_add.mpr (Or.inl (mem_zone_pages hz ⟨Nat.le_add_right z i, Nat.add_lt_add_left hi z⟩))
    exact (hsame _ hp).trans (hg.owned.small z hz i hi)
  · obtain ⟨hpos, hlarge⟩ := hg.owned.large x hx
    exact ⟨hpos, (hsame _ (mem_large_pages hx hpos)).trans hlarge⟩

/-- The descriptors differ on `n` pages from `b` on at most. -/
def AgreesOff (b n : ℕ) (memusage memusage' : ℕ → MemUsage) : Prop :=
  ∀ p, ¬(b ≤ p ∧ p < b + n) → memusage' p = memusage p

theorem Good.reserve (hg : Good h live v other) {n : ℕ} (hn : 0 < n) :
    rtPageAlloc h.pages n = some (none, h.pages) ∨ ∃ b pages, rtPageAlloc h.pages n = some (some b, pages) ∧
      ∀ memusage, AgreesOff b n h.memusage memusage →
        Good { h with pages := pages, memusage := memusage } live v (other + pagesFrom b n) := by
  obtain ⟨rs, hinv⟩ := hg.owned.pages
  rcases hinv.take hn with ⟨hnone, -⟩ | ⟨b, t, rs', hsome, hinv', -⟩
  · exact Or.inl hnone
  · rw [add_right_comm] at hinv'
    refine Or.inr ⟨b, t, hsome, fun memusage hagrees => hg.setPages hinv' fun p hp => hagrees p fun hrange => ?_⟩
    have hnodup : ((points rs' : Multiset ℕ) + (other + pagesFrom b n + v.pages h.zonePageCnt)).Nodup := by
      rw [hinv'.pages]
      exact List.nodup_range'
    have hdisjoint := (Multiset.nodup_add.mp (Multiset.nodup_add.mp hnodup).2.1).2.2
    exact Multiset.disjoint_left.mp hdisjoint (Multiset.mem_add.mpr (Or.inr (mem_pagesFrom.mpr hrange))) hp

theorem Good.release {b n : ℕ} (hg : Good h live v (other + pagesFrom b n)) (hn : 0 < n) :
    ∃ pages, rtPageFree h.pages b n = some pages ∧ ∀ memusage, AgreesOff b n h.memusage memusage →
      Good { h with pages := pages, memusage := memusage } live v other := by
  obtain ⟨rs, hinv⟩ := hg.owned.pages
  rw [add_right_comm] at hinv
  obtain ⟨t, rs', hsome, hinv', -⟩ := hinv.give hn
  refine ⟨t, hsome, fun memusage hagrees => hg.setPages hinv' fun p hp => hagrees p fun hrange => ?_⟩
  exact hg.owned.disjoint hp (Multiset.mem_add.mpr (Or.inr (mem_pagesFrom.mpr hrange)))

theorem markLoop_apply (value : ℕ → MemUsage) (z n : ℕ) (memusage : ℕ → MemUsage) (p : ℕ) :
    markLoop value z n memusage p = if z ≤ p ∧ p < z + n then value (p - z) else memusage p := by
  induction n with
  | zero =>
    rw [markLoop, if_neg (by omega)]
  | succ n ih =>
    rw [markLoop]
    by_cases hp : p = z + n
    · rw [hp, Function.update_self, if_pos (by omega), Nat.add_sub_cancel_left]
    · rw [Function.update_of_ne hp, ih]
      exact if_congr (by omega) rfl rfl

theorem agreesOff_markLoop (value : ℕ → MemUsage) (z n : ℕ) (memusage : ℕ → MemUsage) :
    AgreesOff z n memusage (markLoop value z n memusage) := by
  intro p hp
  rw [markLoop_apply, if_neg hp]

/-! ### Zones come and go -/

/-- The first zone leaves `zone_free`, and its pages are among the other ones. -/
theorem Good.unkeep (hg : Good h live v other) {l : List ℕ} (hl : v.kept = z :: l) :
    Good { h with zoneFree := (h.zone z).zNext, zoneFreeCnt := h.zoneFreeCnt - 1 } live
      { v with zones := v.zones.erase z, kept := l } (other + pagesFrom z h.zonePageCnt) ∧ Marked h z := by
  have hmem : z ∈ v.kept := by
    rw [hl]
    exact List.mem_cons_self
  obtain ⟨hz, hfull⟩ := hg.placed.mem_kept z hmem
  have hnodup := hg.chains.kept_nodup
  rw [hl] at hnodup
  have hzl := (List.nodup_cons.mp hnodup).1
  have hc : Chains { h with zoneFree := (h.zone z).zNext, zoneFreeCnt := h.zoneFreeCnt - 1 } { v with kept := l } :=
    hg.chains.unkeep hl rfl rfl rfl rfl
  refine ⟨⟨⟨hg.config.pages, hg.config.room, hg.config.limit, hg.config.half⟩,
    ⟨hc.array, hc.array_nodup, hc.kept, hc.kept_nodup, hc.kept_cnt⟩, ?_,
    fun w hw => hg.zone w (Finset.mem_of_mem_erase hw), ⟨?_, fun w hw => hg.owned.small w (Finset.mem_of_mem_erase hw),
      hg.owned.large⟩, hg.live_nodup, fun r => ?_⟩, hg.owned.small z hz⟩
  · refine hg.placed.change z (fun w hw => ⟨samePlace_refl _, ?_, ?_, fun _ => Iff.rfl⟩) (fun zj => ?_)
      (fun hk => absurd hk hzl) fun hk => absurd hk (Finset.notMem_erase z _)
    · exact (Finset.mem_erase.trans (and_iff_right hw))
    · rw [hl, List.mem_cons, or_iff_right hw]
    · refine iff_of_false (fun hzj => ?_) fun hk => absurd hk.1 (Finset.notMem_erase z _)
      exact ((hg.placed.mem_array zj z).mp hzj).2.2.2 hmem
  · obtain ⟨rs, hinv⟩ := hg.owned.pages
    refine ⟨rs, ?_⟩
    have hsum := Finset.add_sum_erase v.zones (fun w => pagesFrom w h.zonePageCnt) hz
    simp only [View.pages] at hinv ⊢
    rw [← hsum, add_assoc, ← add_assoc] at hinv
    exact hinv
  · rw [hg.live_iff]
    refine or_congr_left ⟨?_, ?_⟩
    · rintro ⟨w, hw, hheld⟩
      refine ⟨w, Finset.mem_erase.mpr ⟨?_, hw⟩, hheld⟩
      rintro rfl
      exact (hg.zone w hw).not_held hfull hheld
    · rintro ⟨w, hw, hheld⟩
      exact ⟨w, Finset.mem_of_mem_erase hw, hheld⟩

theorem initZone_ok (hc : Config h) (hzi : zi < nzones) (hsize : 4 * chunkSizeOf zi ≤ h.zoneSize) (next : Option ℕ) :
    ZoneOk h.zoneSize h.cNext z
      { zMagic := zallocSlabMagic
        zZoneindex := zi
        zNmax := (h.zoneSize - chunkOffset (chunkSizeOf zi)) / chunkSizeOf zi
        zNfree := (h.zoneSize - chunkOffset (chunkSizeOf zi)) / chunkSizeOf zi - 1
        zBaseptr := z * pageSize + chunkOffset (chunkSizeOf zi)
        zUindex := 0
        zChunksize := chunkSizeOf zi
        zNext := next
        zFreechunk := none } [] := by
  obtain ⟨hchunk, hlow, hhigh⟩ := layout_spec zi hzi
  have hroom := hc.room
  have hzone : sizeofSlabZone = 36 := rfl
  have hnmax : 2 ≤ (h.zoneSize - chunkOffset (chunkSizeOf zi)) / chunkSizeOf zi :=
    (Nat.le_div_iff_mul_le (by omega)).mpr (by omega)
  have hfits := Nat.div_mul_le_self (h.zoneSize - chunkOffset (chunkSizeOf zi)) (chunkSizeOf zi)
  refine ⟨hzi, rfl, Nat.add_le_add_left hlow _, ?_, hnmax, ?_, rfl, List.nodup_nil, fun c hc => absurd hc List.not_mem_nil, ?_⟩
  · simp only
    omega
  · exact Nat.zero_lt_of_lt hnmax
  · rw [List.length_nil]
    rfl

theorem Good.initZone (hg : Good h live v (other + pagesFrom z h.zonePageCnt)) (hmarked : Marked h z) (hzi : zi < nzones)
    (hsize : 4 * chunkSizeOf zi ≤ h.zoneSize) :
    ∃ v', Good (initZone h zi (chunkSizeOf zi) z).2 ((initZone h zi (chunkSizeOf zi) z).1 :: live) v' other ∧
      v'.kept = v.kept := by
  have hcnt := hg.config.cnt_pos
  have hoff : ∀ p, z ≤ p ∧ p < z + h.zonePageCnt → p ∉ v.pages h.zonePageCnt := fun p hp hmem =>
    hg.owned.disjoint hmem (Multiset.mem_add.mpr (Or.inr (mem_pagesFrom.mpr hp)))
  have hnew : z ∉ v.zones := fun hz =>
    hoff z (by omega) (Multiset.mem_add.mpr (Or.inl (mem_zone_pages hz ⟨le_rfl, by omega⟩)))
  have hout : ∀ zj, z ∉ v.array zj := fun zj hmem => hnew ((hg.placed.mem_array zj z).mp hmem).1
  have hkept : z ∉ v.kept := fun hmem => hnew (hg.placed.mem_kept z hmem).1
  have hok := @initZone_ok h z zi hg.config hzi hsize (h.zoneArray zi)
  obtain ⟨zone, hzone⟩ : ∃ zone, zone = ({
      zMagic := zallocSlabMagic
      zZoneindex := zi
      zNmax := (h.zoneSize - chunkOffset (chunkSizeOf zi)) / chunkSizeOf zi
      zNfree := (h.zoneSize - chunkOffset (chunkSizeOf zi)) / chunkSizeOf zi - 1
      zBaseptr := z * pageSize + chunkOffset (chunkSizeOf zi)
      zUindex := 0
      zChunksize := chunkSizeOf zi
      zNext := h.zoneArray zi
      zFreechunk := none } : SlabZone) := ⟨_, rfl⟩
  have heq : Slab.initZone h zi (chunkSizeOf zi) z = (zone.chunkAt 0, (h.setZone z zone).setArray zi (some z)) := by
    rw [hzone]
    rfl
  have hfields : zone.zZoneindex = zi ∧ zone.zNext = h.zoneArray zi ∧ zone.zMagic = zallocSlabMagic ∧ zone.zUindex = 0 ∧
      0 < zone.zNfree := by
    have hroom := hok.room
    rw [hzone]
    refine ⟨rfl, rfl, rfl, rfl, ?_⟩
    simp only at hroom ⊢
    omega
  rw [← hzone] at hok
  obtain ⟨hindex, hnext, hmagic, huindex, hnfree⟩ := hfields
  have hheld : ∀ r, Held zone [] r ↔ r = zone.chunkAt 0 := by
    intro r
    constructor
    · rintro ⟨-, i, hi, rfl⟩
      rw [huindex] at hi
      rw [Nat.eq_zero_of_le_zero hi]
    · rintro rfl
      exact ⟨List.not_mem_nil, 0, Nat.zero_le _, rfl⟩
  have hpage := hok.held_page hg.config.pages ((hheld _).mpr rfl)
  have hfresh : zone.chunkAt 0 ∉ live := fun hmem => hoff _ hpage (hg.live_page hmem)
  have hchains := hg.chains.push hout hkept hnext
  rw [heq]
  -- the zone that was added, and the others
  have hself : ((h.setZone z zone).setArray zi (some z)).zone z = zone := zone_setZone_self
  have hothers : ∀ w, w ≠ z → ((h.setZone z zone).setArray zi (some z)).zone w = h.zone w :=
    fun w hw => zone_setZone_of_ne hw
  have hne : ∀ w ∈ v.zones, w ≠ z := by
    rintro w hw rfl
    exact hnew hw
  refine ⟨{ v with
      zones := insert z v.zones
      array := Function.update v.array zi (z :: v.array zi)
      chunks := Function.update v.chunks z [] },
    ⟨⟨hg.config.pages, hg.config.room, hg.config.limit, hg.config.half⟩,
      ⟨hchains.array, hchains.array_nodup, hchains.kept, hchains.kept_nodup, hchains.kept_cnt⟩, ?_, fun w hw => ?_,
      ⟨?_, fun w hw => ?_, hg.owned.large⟩, List.nodup_cons.mpr ⟨hfresh, hg.live_nodup⟩, fun r => ?_⟩, rfl⟩
  · refine hg.placed.change z (fun w hw => ⟨?_, ?_, Iff.rfl, fun zj => ?_⟩) (fun zj => ?_) (fun hk => absurd hk hkept)
      fun _ _ => ?_
    · rw [hothers w hw]
      exact samePlace_refl _
    · exact Finset.mem_insert.trans (or_iff_right hw)
    · exact mem_update_list (by rw [List.mem_cons, or_iff_right hw]) zj
    · have hmem : z ∈ z :: v.array zi ↔ True := iff_of_true List.mem_cons_self trivial
      rw [mem_update_list_self hmem (fun zk _ => hout zk) zj, hself, hindex]
      simp [hnfree, hkept]
    · rw [hself]
      exact hmagic
  · rcases Finset.mem_insert.mp hw with rfl | hw
    · rw [hself]
      simp only [Function.update_self]
      exact hok
    · rw [hothers w (hne w hw)]
      simp only [Function.update_of_ne (hne w hw)]
      exact hg.zone w hw
  · obtain ⟨rs, hinv⟩ := hg.owned.pages
    refine ⟨rs, ?_⟩
    simp only [View.pages] at hinv ⊢
    rw [Finset.sum_insert hnew, add_assoc, ← add_assoc]
    exact hinv
  · rcases Finset.mem_insert.mp hw with rfl | hw
    · exact hmarked
    · exact hg.owned.small w hw
  · rw [List.mem_cons, hg.live_iff, ← or_assoc]
    refine or_congr_left ⟨?_, ?_⟩
    · rintro (rfl | ⟨w, hw, hw'⟩)
      · refine ⟨z, Finset.mem_insert_self z _, ?_⟩
        simp only [hself, Function.update_self]
        exact (hheld _).mpr rfl
      · refine ⟨w, Finset.mem_insert_of_mem hw, ?_⟩
        simp only [hothers w (hne w hw), Function.update_of_ne (hne w hw)]
        exact hw'
    · rintro ⟨w, hw, hw'⟩
      rcases Finset.mem_insert.mp hw with rfl | hw
      · simp only [hself, Function.update_self] at hw'
        exact Or.inl ((hheld r).mp hw')
      · simp only [hothers w (hne w hw), Function.update_of_ne (hne w hw)] at hw'
        exact Or.inr ⟨w, hw, hw'⟩

end RtThread.Memory.Slab
