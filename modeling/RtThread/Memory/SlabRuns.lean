import RtThread.Memory.SlabOps

/-!
# Runs of the slab allocator

In every run of `rt_malloc` and `rt_free` each zone with free chunks is in one list, the chunks of a zone
are free or held or were never used, and at most two wholly free zones are kept.
-/

namespace RtThread.Memory.Slab

open RtThread.Lib.Chain RtThread.Lib.Runs RtThread.Lib.Transition RtThread.Lib.Word RtThread.Memory.Pages

variable {h h' : Heap} {v : View} {live : List ℕ} {other : Multiset ℕ} {z zi c : ℕ}

/-- The heap, and the pointers that were handed out and not freed. -/
structure Sys where
  heap : Heap
  live : List ℕ

/-- `write` is a user who writes to the first word of memory that was handed out, where the link of a free chunk is. -/
inductive Act where
  | malloc (size : ℕ)
  | free (ptr : Option ℕ)
  | write (ptr : ℕ) (word : Option ℕ)

/-- The pointer that was returned is one more that is handed out. -/
def hand (live : List ℕ) (r : Option ℕ) : List ℕ := r.toList ++ live

def Act.Allowed (s : Sys) : Act → Prop
  | .malloc size => size < 2 ^ 32
  | .free ptr => ∀ p ∈ ptr, p ∈ s.live
  | .write ptr _ => ptr ∈ s.live

instance (s : Sys) : (a : Act) → Decidable (a.Allowed s)
  | .malloc _ => inferInstanceAs (Decidable (_ < _))
  | .free none => isTrue fun p hp => by cases hp
  | .free (some p) => decidable_of_iff (p ∈ s.live) ⟨fun h q hq => by cases hq; exact h, fun h => h p rfl⟩
  | .write _ _ => inferInstanceAs (Decidable (_ ∈ _))

def call (s : Sys) : Act → Option Sys
  | .malloc size => (rtMalloc s.heap size).map fun x => ⟨x.2, hand s.live x.1⟩
  | .free ptr => (rtFree s.heap ptr).map fun h => ⟨h, ptr.elim s.live s.live.erase⟩
  | .write ptr word => some { s with heap := { s.heap with cNext := Function.update s.heap.cNext ptr word } }

def step (s : Sys) (a : Act) : Option Sys := if a.Allowed s then call s a else none

/-- `c` is a chunk of the zone `z`, inside of it and behind the header. -/
def IsChunk (h : Heap) (z c : ℕ) : Prop :=
  (∃ i < (h.zone z).zNmax, c = (h.zone z).zBaseptr + i * (h.zone z).zChunksize) ∧
    z * pageSize + sizeofSlabZone ≤ c ∧ c + (h.zone z).zChunksize ≤ z * pageSize + h.zoneSize

/-- The lists, the chunks and the pages of the zones of a view; `table` are the pages of `memusage`. -/
structure Sound (s : Sys) (v : View) (table : Multiset ℕ) : Prop where
  nfree : ∀ z ∈ v.zones, Linked s.heap.cNext (s.heap.zone z).zFreechunk (v.chunks z) ∧
    (s.heap.zone z).zUindex < (s.heap.zone z).zNmax ∧
    (s.heap.zone z).zNfree = ((s.heap.zone z).zNmax - 1 - (s.heap.zone z).zUindex) + (v.chunks z).length
  array : ∀ zi, Linked s.heap.next (s.heap.zoneArray zi) (v.array zi) ∧ ∀ z ∈ v.array zi, z ∈ v.zones
  linked : ∀ z ∈ v.zones, ∀ zi, (v.array zi).count z =
    if (s.heap.zone z).zZoneindex = zi ∧ 0 < (s.heap.zone z).zNfree ∧ z ∉ v.kept then 1 else 0
  kept : Linked s.heap.next s.heap.zoneFree v.kept ∧ v.kept.Nodup ∧ ∀ z ∈ v.kept, z ∈ v.zones
  zoneFreeCnt : s.heap.zoneFreeCnt = v.kept.length ∧ s.heap.zoneFreeCnt ≤ zoneReleaseThresh
  chunks : ∀ z ∈ v.zones, (v.chunks z).Nodup ∧ ∀ c ∈ v.chunks z, c ∉ s.live ∧ IsChunk s.heap z c
  live : s.live.Nodup ∧
    ∀ r ∈ s.live, (∃ z ∈ v.zones, IsChunk s.heap z r) ∨ ∃ x ∈ v.large, r = x.1 * pageSize
  pages : ∃ runs, Listed s.heap.pages runs ∧
    points runs + table + ∑ z ∈ v.zones, pagesFrom z s.heap.zonePageCnt + ∑ x ∈ v.large, pagesFrom x.1 x.2 =
      pagesFrom s.heap.pages.heapStart (s.heap.pages.heapEnd - s.heap.pages.heapStart)

/-- What holds after every call, with the pages that `memusage` takes. -/
def Keeps (table : Multiset ℕ) (h : Heap) (live : List ℕ) : Prop :=
  ∃ v, Good h live v table ∧ v.kept.length ≤ zoneReleaseThresh

/-! ### `rt_malloc` -/

theorem Config.four_mul_le (hc : Config h) {size : ℕ} {x : ℕ × ℕ} (hx : Fits size x) (hlt : size < h.zoneLimit) :
    4 * chunkSizeOf x.1 ≤ h.zoneSize := by
  have hroom := hc.room
  have hlimit := hx.limit
  rw [← hx.size]
  by_cases hhalf : h.zoneSize < 65536
  · have := hx.limit_half (lt_of_lt_of_le hlt (hc.half hhalf))
    omega
  · omega

theorem newZone_keeps (hk : Keeps other h live) (hzi : zi < nzones) (hsize : 4 * chunkSizeOf zi ≤ h.zoneSize) :
    ∃ r h', newZone h zi (chunkSizeOf zi) = some (r, h') ∧ Keeps other h' (hand live r) := by
  obtain ⟨v, hg, hthresh⟩ := hk
  have hlinked := hg.chains.kept
  rw [newZone]
  cases hfree : h.zoneFree with
  | some z =>
    rw [hfree] at hlinked
    obtain ⟨l, hl, -⟩ := hlinked.exists_cons
    obtain ⟨hg', hmarked⟩ := hg.unkeep hl
    obtain ⟨v', hg'', hkept⟩ := hg'.initZone hmarked hzi hsize
    refine ⟨_, _, rfl, v', hg'', ?_⟩
    rw [hl, List.length_cons] at hthresh
    rw [hkept]
    exact Nat.le_of_succ_le hthresh
  | none =>
    simp only [hg.config.div_eq]
    rcases hg.reserve hg.config.cnt_pos with hnone | ⟨z, pages, hsome, hg'⟩
    · have hsame : { h with zoneFree := none } = h := by rw [← hfree]
      rw [hnone]
      exact ⟨none, h, congrArg (fun g => some (none, g)) hsame, v, hg, hthresh⟩
    · have hg' := hg' _ (agreesOff_markLoop (fun off => ⟨.small, off⟩) z h.zonePageCnt h.memusage)
      have hmarked : Marked { h with
          pages := pages, memusage := markLoop (fun off => ⟨.small, off⟩) z h.zonePageCnt h.memusage } z := by
        intro i hi
        change i < h.zonePageCnt at hi
        simp only [markLoop_apply]
        rw [if_pos (by omega), Nat.add_sub_cancel_left]
      obtain ⟨v', hg'', hkept⟩ := hg'.initZone hmarked hzi hsize
      rw [hfree] at hg''
      rw [hsome]
      exact ⟨_, _, rfl, v', hg'', hkept ▸ hthresh⟩

theorem Good.addLarge {b n : ℕ} (hg : Good h live v (other + pagesFrom b n)) (hn : 0 < n)
    (hlarge : h.memusage b = ⟨.large, n⟩) :
    Good h (b * pageSize :: live) { v with large := insert (b, n) v.large } other := by
  have hoff : b ∉ v.pages h.zonePageCnt := fun hmem =>
    hg.owned.disjoint hmem (Multiset.mem_add.mpr (Or.inr (mem_pagesFrom.mpr (by omega))))
  have hnew : (b, n) ∉ v.large := fun hmem => hoff (mem_large_pages hmem hn)
  have hfresh : b * pageSize ∉ live := by
    intro hmem
    have hpage := hg.live_page hmem
    rw [Nat.mul_div_cancel _ (by decide)] at hpage
    exact hoff hpage
  refine ⟨hg.config, ⟨hg.chains.array, hg.chains.array_nodup, hg.chains.kept, hg.chains.kept_nodup, hg.chains.kept_cnt⟩,
    ⟨hg.placed.mem_array, hg.placed.mem_kept, hg.placed.magic⟩, hg.zone, ⟨?_, hg.owned.small, fun x hx => ?_⟩,
    List.nodup_cons.mpr ⟨hfresh, hg.live_nodup⟩, fun r => ?_⟩
  · obtain ⟨rs, hinv⟩ := hg.owned.pages
    refine ⟨rs, ?_⟩
    simp only [View.pages] at hinv ⊢
    rw [Finset.sum_insert hnew, add_left_comm (∑ z ∈ v.zones, pagesFrom z h.zonePageCnt), ← add_assoc other]
    exact hinv
  · rcases Finset.mem_insert.mp hx with rfl | hx
    · exact ⟨hn, hlarge⟩
    · exact hg.owned.large x hx
  · rw [List.mem_cons, hg.live_iff, or_left_comm]
    refine or_congr_right ?_
    simp only [Finset.mem_insert, exists_eq_or_imp]

theorem mallocLarge_keeps (hk : Keeps other h live) (size : ℕ) :
    ∃ r h', mallocLarge h size = some (r, h') ∧ Keeps other h' (hand live r) := by
  obtain ⟨v, hg, hthresh⟩ := hk
  unfold mallocLarge
  simp only
  rcases Nat.eq_zero_or_pos (alignUp 12 size / pageSize) with hzero | hpos
  · rw [hzero, rtPageAlloc, if_pos rfl]
    exact ⟨none, h, rfl, v, hg, hthresh⟩
  · rcases hg.reserve hpos with hnone | ⟨b, pages, hsome, hg'⟩
    · rw [hnone]
      exact ⟨none, h, rfl, v, hg, hthresh⟩
    · have hagrees : AgreesOff b (alignUp 12 size / pageSize) h.memusage
          (Function.update h.memusage b ⟨.large, alignUp 12 size / pageSize⟩) := by
        intro p hp
        exact Function.update_of_ne (by omega) _ _
      rw [hsome]
      exact ⟨_, _, rfl, _, (hg' _ hagrees).addLarge hpos (Function.update_self ..), hthresh⟩

theorem rtMalloc_keeps (hk : Keeps other h live) (size : ℕ) :
    ∃ r h', rtMalloc h size = some (r, h') ∧ Keeps other h' (hand live r) := by
  rw [rtMalloc]
  by_cases hzero : size = 0
  · rw [if_pos hzero]
    exact ⟨none, h, rfl, hk⟩
  · rw [if_neg hzero]
    by_cases hlimit : h.zoneLimit ≤ size
    · rw [if_pos hlimit]
      exact mallocLarge_keeps hk size
    · obtain ⟨v, hg, hthresh⟩ := hk
      have hmax := hg.config.limit
      have hx := @zoneindex_spec size (by omega) (by omega)
      have hfour := hg.config.four_mul_le hx (by omega)
      simp only [if_neg hlimit, if_pos hx.index]
      cases hhead : h.zoneArray (zoneindex size).1 with
      | some z =>
        obtain ⟨hpos, r, h', v', htake, hg', hkept⟩ := hg.take hhead
        rw [← hx.size] at htake
        simp only [if_pos hpos, htake, Option.map_some]
        exact ⟨_, _, rfl, v', hg', hkept ▸ hthresh⟩
      | none =>
        simp only [hx.size]
        exact newZone_keeps ⟨v, hg, hthresh⟩ hx.index hfour

/-! ### `rt_free` -/

/-- With three zones on `zone_free` one goes back to the page allocator. -/
theorem releaseZone_keeps (hg : Good h live v other) (hlen : v.kept.length ≤ zoneReleaseThresh + 1) :
    ∃ h', releaseZone h = some h' ∧ Keeps other h' live := by
  have hcnt := hg.chains.kept_cnt
  rw [releaseZone]
  split
  · rename_i hlt
    obtain ⟨z, l, hl⟩ : ∃ z l, v.kept = z :: l := by
      refine List.exists_cons_of_ne_nil fun hnil => ?_
      rw [hcnt, hnil, List.length_nil] at hlt
      exact absurd hlt (by decide)
    have hlinked := hg.chains.kept
    rw [hl] at hlinked hlen
    obtain ⟨hg', -⟩ := hg.unkeep hl
    obtain ⟨pages, hfree, hg''⟩ := hg'.release hg.config.cnt_pos
    have hg'' := hg'' _ (agreesOff_markLoop (fun _ => ⟨.free, 0⟩) z h.zonePageCnt h.memusage)
    refine ⟨_, ?_, _, hg'', Nat.le_of_succ_le_succ hlen⟩
    rw [hlinked.1, Option.bind_some, hg.config.div_eq, hfree, Option.map_some]
  · rename_i hle
    refine ⟨h, rfl, v, hg, ?_⟩
    rw [hcnt, Nat.cast_lt] at hle
    exact Nat.le_of_not_lt hle

theorem freeChunk_keeps (hg : Good h live v other) (hthresh : v.kept.length ≤ zoneReleaseThresh) (hz : z ∈ v.zones)
    (hheld : Held (h.zone z) (v.chunks z) c) : ∃ h', freeChunk h z c = some h' ∧ Keeps other h' (live.erase c) := by
  obtain ⟨v', hg', hzones, hkept⟩ := hg.give hz hheld
  unfold freeChunk
  simp only
  split
  · rename_i hfull
    obtain ⟨h', v'', hloop, hg'', hkept'⟩ := hg'.keep (hzones ▸ hz) (hkept ▸ hg.not_kept hz hheld) hfull.1
    rw [hloop, Option.bind_some]
    refine releaseZone_keeps hg'' ?_
    rw [hkept', hkept, List.length_cons]
    exact Nat.succ_le_succ hthresh
  · exact ⟨_, rfl, v', hg', hkept ▸ hthresh⟩

theorem Good.dropLarge (hg : Good h live v other) {x : ℕ × ℕ} (hx : x ∈ v.large) :
    Good h (live.erase (x.1 * pageSize)) { v with large := v.large.erase x } (other + pagesFrom x.1 x.2) := by
  refine ⟨hg.config, ⟨hg.chains.array, hg.chains.array_nodup, hg.chains.kept, hg.chains.kept_nodup, hg.chains.kept_cnt⟩,
    ⟨hg.placed.mem_array, hg.placed.mem_kept, hg.placed.magic⟩, hg.zone,
    ⟨?_, hg.owned.small, fun y hy => hg.owned.large y (Finset.mem_of_mem_erase hy)⟩, hg.live_nodup.erase _, fun r => ?_⟩
  · obtain ⟨rs, hinv⟩ := hg.owned.pages
    refine ⟨rs, ?_⟩
    have hsum := Finset.add_sum_erase v.large (fun y => pagesFrom y.1 y.2) hx
    simp only [View.pages] at hinv ⊢
    rw [← hsum, add_left_comm (∑ z ∈ v.zones, pagesFrom z h.zonePageCnt), ← add_assoc other] at hinv
    exact hinv
  · rw [hg.live_nodup.mem_erase_iff, hg.live_iff]
    have hzone : (∃ z ∈ v.zones, Held (h.zone z) (v.chunks z) r) → r ≠ x.1 * pageSize := by
      rintro ⟨z, hz, hheld⟩ rfl
      have hpage := (hg.zone z hz).held_page hg.config.pages hheld
      rw [Nat.mul_div_cancel _ (by decide)] at hpage
      have hpos := (hg.owned.large x hx).1
      exact (hg.owned.apart hz hpage).2.1 x hx ⟨le_rfl, by omega⟩
    constructor
    · rintro ⟨hr, hheld | ⟨y, hy, rfl⟩⟩
      · exact Or.inl hheld
      · refine Or.inr ⟨y, Finset.mem_erase.mpr ⟨?_, hy⟩, rfl⟩
        rintro rfl
        exact hr rfl
    · rintro (hheld | ⟨y, hy, rfl⟩)
      · exact ⟨hzone hheld, Or.inl hheld⟩
      · obtain ⟨hne, hy⟩ := Finset.mem_erase.mp hy
        refine ⟨fun he => hne ?_, Or.inr ⟨y, hy, rfl⟩⟩
        exact hg.owned.apart_large hy hx (Nat.eq_of_mul_eq_mul_right (by decide) he)

theorem rtFree_keeps (hk : Keeps other h live) (hc : c ∈ live) :
    ∃ h', rtFree h (some c) = some h' ∧ Keeps other h' (live.erase c) := by
  obtain ⟨v, hg, hthresh⟩ := hk
  simp only [rtFree]
  rcases (hg.live_iff c).mp hc with ⟨z, hz, hheld⟩ | ⟨x, hx, rfl⟩
  · -- the descriptor of the page leads to the zone
    obtain ⟨hlow, hhigh⟩ := (hg.zone z hz).held_page hg.config.pages hheld
    have hkup := hg.owned.small z hz (c / pageSize - z) (by omega)
    rw [Nat.add_sub_cancel' hlow] at hkup
    rw [hkup, if_neg (by simp)]
    simp only [Nat.sub_sub_self hlow]
    rw [if_pos (hg.placed.magic z hz (hg.not_kept hz hheld))]
    exact freeChunk_keeps hg hthresh hz hheld
  · obtain ⟨hpos, hkup⟩ := hg.owned.large x hx
    obtain ⟨pages, hfree, hg'⟩ := (hg.dropLarge hx).release hpos
    have hagrees : AgreesOff x.1 x.2 h.memusage (Function.update h.memusage x.1 ⟨.large, 0⟩) := by
      intro p hp
      exact Function.update_of_ne (by omega) _ _
    have hpage : x.1 * pageSize / pageSize = x.1 := Nat.mul_div_cancel _ (by decide)
    rw [hpage, hkup, if_pos rfl, if_pos (Nat.mul_mod_left _ _), hfree]
    exact ⟨_, rfl, _, hg' _ hagrees, hthresh⟩

/-! ### Every run -/

theorem Good.links (hg : Good h live v other) {cNext : ℕ → Option ℕ}
    (hsame : ∀ z ∈ v.zones, ∀ c ∈ v.chunks z, cNext c = h.cNext c) : Good { h with cNext := cNext } live v other := by
  refine ⟨⟨hg.config.pages, hg.config.room, hg.config.limit, hg.config.half⟩,
    ⟨hg.chains.array, hg.chains.array_nodup, hg.chains.kept, hg.chains.kept_nodup, hg.chains.kept_cnt⟩,
    ⟨hg.placed.mem_array, hg.placed.mem_kept, hg.placed.magic⟩, fun z hz => ?_,
    ⟨hg.owned.pages, hg.owned.small, hg.owned.large⟩, hg.live_nodup, hg.live_iff⟩
  have hok := hg.zone z hz
  exact ⟨hok.index, hok.size, hok.base, hok.fits, hok.room, hok.uindex, hok.linked.congr (hsame z hz), hok.nodup,
    hok.chunk, hok.nfree⟩

theorem Good.not_free (hg : Good h live v other) (hz : z ∈ v.zones) (hc : c ∈ live) : c ∉ v.chunks z := by
  intro hmem
  have hpage := (hg.zone z hz).chunk_page hg.config.pages hmem
  exact ((hg.live_of_page hz hpage).mp hc).1 hmem

theorem write_keeps (hk : Keeps other h live) (hc : c ∈ live) (word : Option ℕ) :
    Keeps other { h with cNext := Function.update h.cNext c word } live := by
  obtain ⟨v, hg, hthresh⟩ := hk
  refine ⟨v, hg.links fun z hz d hd => Function.update_of_ne ?_ _ _, hthresh⟩
  rintro rfl
  exact hg.not_free hz hc hd

theorem step_keeps {s : Sys} {a : Act} (hk : Keeps other s.heap s.live) (ha : a.Allowed s) :
    ∃ s', step s a = some s' ∧ Keeps other s'.heap s'.live := by
  rw [step, if_pos ha]
  cases a with
  | malloc size =>
    obtain ⟨r, h', hmalloc, hk'⟩ := rtMalloc_keeps hk size
    exact ⟨_, by rw [call, hmalloc, Option.map_some], hk'⟩
  | free ptr =>
    cases ptr with
    | none => exact ⟨s, rfl, hk⟩
    | some p =>
      obtain ⟨h', hfree, hk'⟩ := rtFree_keeps hk (ha p rfl)
      exact ⟨_, by rw [call, hfree, Option.map_some], hk'⟩
  | write ptr word => exact ⟨_, rfl, write_keeps hk ha word⟩

theorem ZoneOk.isChunk (hok : ZoneOk h.zoneSize h.cNext z (h.zone z) (v.chunks z))
    (hi : ∃ i ≤ (h.zone z).zUindex, c = (h.zone z).chunkAt i) : IsChunk h z c := by
  obtain ⟨i, hi, rfl⟩ := hi
  have hlt := Nat.lt_of_le_of_lt hi hok.uindex
  exact ⟨⟨i, hlt, rfl⟩, hok.within hlt⟩

theorem Keeps.sound {s : Sys} (hk : Keeps other s.heap s.live) : ∃ v, Sound s v other := by
  obtain ⟨v, hg, hthresh⟩ := hk
  refine ⟨v, fun z hz => ?_, fun zi => ⟨hg.chains.array zi, fun z hz => ((hg.placed.mem_array zi z).mp hz).1⟩,
    fun z hz zi => ?_, ⟨hg.chains.kept, hg.chains.kept_nodup, fun z hz => (hg.placed.mem_kept z hz).1⟩,
    ⟨hg.chains.kept_cnt, ?_⟩, fun z hz => ⟨(hg.zone z hz).nodup, fun c hc => ⟨fun hmem => ?_, ?_⟩⟩,
    ⟨hg.live_nodup, fun r hr => ?_⟩, ?_⟩
  · exact ⟨(hg.zone z hz).linked, (hg.zone z hz).uindex, (hg.zone z hz).nfree⟩
  · by_cases hmem : z ∈ v.array zi
    · rw [List.count_eq_one_of_mem (hg.chains.array_nodup zi) hmem, if_pos ((hg.placed.mem_array zi z).mp hmem).2]
    · rw [List.count_eq_zero_of_not_mem hmem, if_neg fun hplace => hmem ((hg.placed.mem_array zi z).mpr ⟨hz, hplace⟩)]
  · rw [hg.chains.kept_cnt]
    exact Nat.cast_le.mpr hthresh
  · exact hg.not_free hz hmem hc
  · exact (hg.zone z hz).isChunk ((hg.zone z hz).chunk c hc)
  · refine ((hg.live_iff r).mp hr).imp_left ?_
    rintro ⟨z, hz, hheld⟩
    exact ⟨z, hz, (hg.zone z hz).isChunk hheld.2⟩
  · obtain ⟨rs, hinv⟩ := hg.owned.pages
    refine ⟨rs, hinv.listed, ?_⟩
    rw [← hinv.pages, View.pages, add_assoc, add_assoc]

/-! ### The heap at the start -/

theorem zoneSizeLoop_cases (limsize : ℕ) : zoneSizeLoop limsize 2 zallocMinZoneSize = 32768 ∨
    zoneSizeLoop limsize 2 zallocMinZoneSize = 65536 ∨ zoneSizeLoop limsize 2 zallocMinZoneSize = 131072 := by
  rw [zoneSizeLoop]
  split
  · rw [zoneSizeLoop]
    split
    · exact Or.inr (Or.inr rfl)
    · exact Or.inr (Or.inl rfl)
  · exact Or.inl rfl

theorem sizes_spec {n : ℕ} (hn : n = 32768 ∨ n = 65536 ∨ n = 131072) :
    n / pageSize * pageSize = n ∧ 32768 ≤ n ∧ (if zallocZoneLimit < n / 4 then zallocZoneLimit else n / 4) ≤ 16384 ∧
      (n < 65536 → (if zallocZoneLimit < n / 4 then zallocZoneLimit else n / 4) ≤ 8192) := by
  rcases hn with rfl | rfl | rfl <;> decide

theorem init_table {heapStart npages : ℕ} {mem : ℕ → PageHead} {pages : PageHeap}
    (hinit : rtPageInit mem heapStart npages = some pages) (hlt : npages < 2 ^ 20) :
    ∃ b t rs, rtPageAlloc pages (alignUp 12 (npages * 4) / pageSize) = some (some b, t) ∧
      Pages.Inv ⟨t, pagesFrom b (alignUp 12 (npages * 4) / pageSize)⟩ rs ∧
      t.heapStart = heapStart ∧ t.heapEnd = heapStart + npages := by
  obtain ⟨⟨rs, hinv⟩, hstart, hend⟩ := init_inv hinit
  have hpos : 0 < npages := by
    by_contra hzero
    rw [rtPageInit, rtPageFree, if_neg (by omega)] at hinit
    cases hinit
  obtain ⟨hle, hup⟩ := @alignUp_spec 12 (npages * 4) (by omega)
  have htable : 0 < alignUp 12 (npages * 4) / pageSize ∧ alignUp 12 (npages * 4) / pageSize ≤ npages := by
    have hdvd := dvd_alignUp 12 (npages * 4)
    rw [pageSize]
    omega
  have hfree : ∀ i < alignUp 12 (npages * 4) / pageSize, heapStart + i ∈ points rs := by
    intro i hi
    have hpages := hinv.pages
    simp only [hstart, hend, Nat.add_sub_cancel_left, add_zero] at hpages
    rw [← Multiset.mem_coe, hpages]
    exact mem_pagesFrom.mpr (by omega)
  obtain ⟨r, hr, hlow, hhigh⟩ := hinv.listed.separated.exists_run htable.1 hfree
  rcases hinv.take htable.1 with ⟨-, hall⟩ | ⟨b, t, rs', hsome, hinv', hbounds⟩
  · have := hall r hr
    omega
  · rw [zero_add] at hinv'
    exact ⟨b, t, rs', hsome, hinv', hbounds.1.trans hstart, hbounds.2.trans hend⟩

theorem fresh_keeps {rs : List (ℕ × ℕ)} (hc : Config h) (harray : ∀ zi, h.zoneArray zi = none)
    (hfree : h.zoneFree = none ∧ h.zoneFreeCnt = 0) (hinv : Pages.Inv ⟨h.pages, other⟩ rs) : Keeps other h [] := by
  refine ⟨⟨∅, fun _ => [], [], fun _ => [], ∅⟩,
    ⟨hc, ⟨harray, fun _ => List.nodup_nil, hfree.1, List.nodup_nil, hfree.2⟩, ⟨by simp, by simp, by simp⟩, by simp,
      ⟨⟨rs, ?_⟩, by simp, by simp⟩, List.nodup_nil, by simp⟩, Nat.zero_le _⟩
  rw [View.pages, Finset.sum_empty, Finset.sum_empty, add_zero, add_zero]
  exact hinv

theorem init_keeps {mem : ℕ → PageHead} {memusage : ℕ → MemUsage} {zone : ℕ → SlabZone} {cNext : ℕ → Option ℕ}
    {beginAddr endAddr : ℕ} (hend : endAddr < 2 ^ 32)
    (hinit : rtSystemHeapInit mem memusage zone cNext beginAddr endAddr = some h) : ∃ table, Keeps table h [] := by
  simp only [rtSystemHeapInit, Option.ite_none_right_eq_some, Option.bind_eq_some_iff, Option.map_eq_some_iff] at hinit
  obtain ⟨-, pages, hpages, x, halloc, rfl⟩ := hinit
  have hle : endAddr / pageSize * pageSize ≤ endAddr := Nat.div_mul_le_self _ _
  obtain ⟨b, t, rs, hsome, hinv, -⟩ := init_table hpages (by rw [pageSize] at *; omega)
  cases hsome.symm.trans halloc
  obtain ⟨hcnt, hroom, hlimit, hhalf⟩ := sizes_spec (zoneSizeLoop_cases
    (endAddr / pageSize * pageSize - alignUp 12 beginAddr))
  exact ⟨_, fresh_keeps ⟨hcnt, hroom, hlimit, hhalf⟩ (fun _ => rfl) ⟨rfl, rfl⟩ hinv⟩

/-! ### Every run -/

/-- In every run from `rt_system_heap_init` on, the free chunks of each zone are counted, the zone is in the list of
its index once or on `zone_free` or full, its chunks are handed out once, at most two zones are on `zone_free`, and no
page is lost; and every call that its caller may make returns. -/
theorem slab_invariant {mem : ℕ → PageHead} {memusage : ℕ → MemUsage} {zone : ℕ → SlabZone} {cNext : ℕ → Option ℕ}
    {beginAddr endAddr : ℕ} (hend : endAddr < 2 ^ 32)
    (hinit : rtSystemHeapInit mem memusage zone cNext beginAddr endAddr = some h) {acts : List Act} {s : Sys}
    (hrun : exec step ⟨h, []⟩ acts = some s) :
    (∃ v table, Sound s v table) ∧ ∀ a : Act, a.Allowed s → (step s a).isSome = true := by
  obtain ⟨table, hk⟩ := init_keeps hend hinit
  have hk : Keeps table s.heap s.live := by
    refine exec_inv (fun s => Keeps table s.heap s.live) (fun s a s' hs hstep => ?_) hk hrun
    have ha : a.Allowed s := by
      by_contra hna
      rw [step, if_neg hna] at hstep
      cases hstep
    obtain ⟨s₁, hs₁, hk₁⟩ := step_keeps hs ha
    cases hs₁.symm.trans hstep
    exact hk₁
  refine ⟨?_, fun a ha => ?_⟩
  · obtain ⟨v, hv⟩ := hk.sound
    exact ⟨v, table, hv⟩
  · obtain ⟨s', hs', -⟩ := step_keeps hk ha
    exact Option.isSome_of_eq_some hs'

def sampleInit : Option Heap :=
  rtSystemHeapInit (fun _ => ⟨none, 0⟩) (fun _ => ⟨.free, 0⟩) (fun _ => ⟨0, 0, 0, none, 0, 0, 0, 0, none⟩) (fun _ => none)
    0x20000000 0x20080000

/-- Five chunks of two zones; the first zone becomes wholly free, is kept, and is then one of smaller chunks. -/
def sampleRun : List Act :=
  [.malloc 7000, .malloc 7000, .malloc 7000, .malloc 7000, .malloc 7000, .malloc 20000, .write 0x20001028 (some 5),
   .free (some 0x20001028), .free (some 0x20002c28), .free (some 0x20004828), .free (some 0x20006428), .malloc 12]

theorem slab_invariant_sample :
    ∃ h s, sampleInit = some h ∧ exec step ⟨h, []⟩ sampleRun = some s ∧ s.live = [0x20001030, 0x20011000, 0x20009028] ∧
      ∃ v table, Sound s v table := by
  have hrun : (sampleInit.bind fun h => (exec step ⟨h, []⟩ sampleRun).map Sys.live) =
      some [0x20001030, 0x20011000, 0x20009028] := by decide
  simp only [Option.bind_eq_some_iff, Option.map_eq_some_iff] at hrun
  obtain ⟨h, hinit, s, hs, hlive⟩ := hrun
  exact ⟨h, s, hinit, hs, hlive, (slab_invariant (by decide) hinit hs).1⟩

end RtThread.Memory.Slab
