import RtThread.Memory.SlabBytes

/-!
# The data in the slab heap

The blocks that were handed out lie apart from each other, from the headers of the zones, from the free pages and from
`memusage`, so that no assignment of `rt_malloc` or `rt_free` is to a byte of a block that stays in use.
-/

namespace RtThread.Memory.Slab

open RtThread.Lib.Bytes RtThread.Lib.Runs RtThread.Lib.Word RtThread.Memory.Pages

variable {h h' : Heap} {s s' s'' : Pool} {v : View} {live : List ℕ} {other : Multiset ℕ} {z c p q : ℕ} {a : Assign}

/-- The zone of the chunk at `ptr`, as the descriptor of its page says. -/
def zoneOf (h : Heap) (ptr : ℕ) : ℕ := ptr / pageSize - (h.memusage (ptr / pageSize)).size

/-- The bytes of the block at `ptr`: those of its pages, or of a chunk of its zone. -/
def blockSize (h : Heap) (ptr : ℕ) : ℕ :=
  if (h.memusage (ptr / pageSize)).type = .large then (h.memusage (ptr / pageSize)).size * pageSize
  else (h.zone (zoneOf h ptr)).zChunksize

/-! ### Blocks -/

theorem pageSize_eq : pageSize = 4096 := rfl

theorem blockSize_large {n : ℕ} (hkup : h.memusage (q / pageSize) = ⟨.large, n⟩) : blockSize h q = n * pageSize := by
  rw [blockSize, hkup]
  rfl

theorem blockSize_chunk (hmarked : Marked h z) (hq : z ≤ q / pageSize ∧ q / pageSize < z + h.zonePageCnt) :
    (h.memusage (q / pageSize)).type ≠ .large ∧ zoneOf h q = z ∧ blockSize h q = (h.zone z).zChunksize := by
  have hkup := hmarked (q / pageSize - z) (by omega)
  rw [Nat.add_sub_cancel' hq.1] at hkup
  have hsmall : (h.memusage (q / pageSize)).type ≠ .large := by
    rw [hkup]
    exact fun hlarge => PageType.noConfusion hlarge
  have hzone : zoneOf h q = z := by
    rw [zoneOf, hkup]
    exact Nat.sub_sub_self hq.1
  refine ⟨hsmall, hzone, ?_⟩
  rw [blockSize, if_neg hsmall, hzone]

theorem Good.large_block (hg : Good h live v other) {x : ℕ × ℕ} (hx : x ∈ v.large) :
    h.memusage (x.1 * pageSize / pageSize) = ⟨.large, x.2⟩ ∧ blockSize h (x.1 * pageSize) = x.2 * pageSize := by
  have hkup := (hg.owned.large x hx).2
  rw [← Nat.mul_div_cancel x.1 (show 0 < pageSize by decide)] at hkup
  exact ⟨hkup, blockSize_large hkup⟩

/-- The pages of the block at `q` are some of those of a zone, behind the header, or those of a large block. -/
theorem Good.block_cases (hg : Good h live v other) (hq : q ∈ live) :
    (∃ z ∈ v.zones, Held (h.zone z) (v.chunks z) q ∧ blockSize h q = (h.zone z).zChunksize ∧ zoneOf h q = z ∧
      z * pageSize + sizeofSlabZone ≤ q ∧ q + blockSize h q ≤ z * pageSize + h.zonePageCnt * pageSize) ∨
    ∃ x ∈ v.large, q = x.1 * pageSize ∧ blockSize h q = x.2 * pageSize := by
  rcases (hg.live_iff q).mp hq with ⟨z, hz, hheld⟩ | ⟨x, hx, rfl⟩
  · have hok := hg.zone z hz
    obtain ⟨-, hzone, hsize⟩ := blockSize_chunk (hg.owned.small z hz) (hok.held_page hg.config.pages hheld)
    obtain ⟨i, hi, hat⟩ := hheld.2
    have hwithin := hok.within (Nat.lt_of_le_of_lt hi hok.uindex)
    rw [← hat, ← hsize, ← hg.config.pages] at hwithin
    exact Or.inl ⟨z, hz, hheld, hsize, hzone, hwithin⟩
  · exact Or.inr ⟨x, hx, rfl, (hg.large_block hx).2⟩

theorem Good.block_page (hg : Good h live v other) (hq : q ∈ live) {y : ℕ} (hlow : q ≤ y)
    (hhigh : y < q + blockSize h q) : y / pageSize ∈ v.pages h.zonePageCnt := by
  rw [View.pages, Multiset.mem_add]
  rw [pageSize_eq]
  rcases hg.block_cases hq with ⟨z, hz, -, -, -, hwithin⟩ | ⟨x, hx, rfl, hsize⟩
  · rw [pageSize_eq] at hwithin
    exact Or.inl (mem_zone_pages hz (by omega))
  · rw [pageSize_eq] at hlow hhigh hsize
    exact Or.inr (Multiset.mem_sum.mpr ⟨x, hx, mem_pagesFrom.mpr (by omega)⟩)

theorem Owned.same_run (ho : Owned h v other) {x y : ℕ × ℕ} (hx : x ∈ v.large) (hy : y ∈ v.large)
    (hpx : x.1 ≤ p ∧ p < x.1 + x.2) (hpy : y.1 ≤ p ∧ p < y.1 + y.2) : x = y := by
  have hnodup := ho.nodup
  rw [View.pages] at hnodup
  obtain ⟨-, hview, -⟩ := Multiset.nodup_add.mp hnodup
  obtain ⟨-, hlarge, -⟩ := Multiset.nodup_add.mp hview
  by_contra hne
  exact not_mem_of_nodup_sum hlarge hy hx hne (mem_pagesFrom.mpr hpy) (mem_pagesFrom.mpr hpx)

theorem SlabZone.apart {zone : SlabZone} {i j : ℕ} (hne : zone.chunkAt i ≠ zone.chunkAt j) :
    zone.chunkAt i + zone.zChunksize ≤ zone.chunkAt j ∨ zone.chunkAt j + zone.zChunksize ≤ zone.chunkAt i := by
  simp only [SlabZone.chunkAt] at hne ⊢
  rcases Nat.lt_trichotomy i j with hlt | rfl | hlt
  · have hmul : (i + 1) * zone.zChunksize ≤ j * zone.zChunksize := Nat.mul_le_mul_right _ hlt
    rw [Nat.succ_mul] at hmul
    omega
  · exact absurd rfl hne
  · have hmul : (j + 1) * zone.zChunksize ≤ i * zone.zChunksize := Nat.mul_le_mul_right _ hlt
    rw [Nat.succ_mul] at hmul
    omega

/-- A chunk of a zone, handed out or not, or a large block, of `n` bytes. -/
def Cell (h : Heap) (v : View) (c n : ℕ) : Prop :=
  (∃ z ∈ v.zones, (∃ i < (h.zone z).zNmax, c = (h.zone z).chunkAt i) ∧ n = (h.zone z).zChunksize) ∨
    ∃ x ∈ v.large, c = x.1 * pageSize ∧ n = x.2 * pageSize

theorem Good.cell (hg : Good h live v other) (hq : q ∈ live) : Cell h v q (blockSize h q) := by
  rcases hg.block_cases hq with ⟨z, hz, hheld, hsize, -⟩ | hlarge
  · obtain ⟨i, hi, hat⟩ := hheld.2
    exact Or.inl ⟨z, hz, ⟨i, Nat.lt_of_le_of_lt hi (hg.zone z hz).uindex, hat⟩, hsize⟩
  · exact Or.inr hlarge

theorem Good.cell_ge (hg : Good h live v other) {n : ℕ} (hc : Cell h v c n) : 8 ≤ n := by
  rcases hc with ⟨z, hz, -, rfl⟩ | ⟨x, hx, -, rfl⟩
  · have hlayout := (layout_spec _ (hg.zone z hz).index).1
    rw [(hg.zone z hz).size]
    exact hlayout
  · have hpos := (hg.owned.large x hx).1
    rw [pageSize_eq]
    omega

theorem Good.block_ge (hg : Good h live v other) (hq : q ∈ live) : 8 ≤ blockSize h q := hg.cell_ge (hg.cell hq)

theorem Good.cell_apart (hg : Good h live v other) {d n m : ℕ} (hc : Cell h v c n) (hd : Cell h v d m) (hne : c ≠ d) :
    c + n ≤ d ∨ d + m ≤ c := by
  have hn := hg.cell_ge hc
  have hm := hg.cell_ge hd
  have hpages := hg.config.pages
  by_contra hover
  -- a byte of both
  obtain ⟨y, hyc, hyd⟩ : ∃ y, (c ≤ y ∧ y < c + n) ∧ d ≤ y ∧ y < d + m := ⟨max c d, by omega, by omega⟩
  have hzone : ∀ z ∈ v.zones, ∀ i < (h.zone z).zNmax, (h.zone z).chunkAt i ≤ y →
      y < (h.zone z).chunkAt i + (h.zone z).zChunksize → z ≤ y / pageSize ∧ y / pageSize < z + h.zonePageCnt := by
    intro z hz i hi hlow hhigh
    have hwithin := (hg.zone z hz).within hi
    rw [pageSize_eq] at hwithin hpages ⊢
    omega
  have hlarge : ∀ x ∈ v.large, x.1 * pageSize ≤ y → y < x.1 * pageSize + x.2 * pageSize →
      x.1 ≤ y / pageSize ∧ y / pageSize < x.1 + x.2 := by
    intro x hx hlow hhigh
    rw [pageSize_eq] at hlow hhigh ⊢
    omega
  rcases hc with ⟨z, hz, ⟨i, hi, rfl⟩, rfl⟩ | ⟨x, hx, rfl, rfl⟩
  · obtain ⟨hzones, hruns, -⟩ := hg.owned.apart hz (hzone z hz i hi hyc.1 hyc.2)
    rcases hd with ⟨w, hw, ⟨j, hj, rfl⟩, rfl⟩ | ⟨x, hx, rfl, rfl⟩
    · have hwz := hzones w hw (hzone w hw j hj hyd.1 hyd.2)
      subst hwz
      have hapart := SlabZone.apart hne
      omega
    · exact hruns x hx (hlarge x hx hyd.1 hyd.2)
  · have hpage := hlarge x hx hyc.1 hyc.2
    rcases hd with ⟨w, hw, ⟨j, hj, rfl⟩, rfl⟩ | ⟨x', hx', rfl, rfl⟩
    · exact (hg.owned.apart hw (hzone w hw j hj hyd.1 hyd.2)).2.1 x hx hpage
    · exact hne (by rw [hg.owned.same_run hx hx' hpage (hlarge x' hx' hyd.1 hyd.2)])

/-! ### What an assignment leaves alone -/

/-- The block at `q` is described and filled as before. -/
structure Same (s s' : Pool) (q : ℕ) : Prop where
  table : s'.table = s.table
  heapStart : s'.heap.pages.heapStart = s.heap.pages.heapStart
  kup : s'.heap.memusage (q / pageSize) = s.heap.memusage (q / pageSize)
  chunksize : (s.heap.memusage (q / pageSize)).type ≠ .large →
    (s'.heap.zone (zoneOf s.heap q)).zChunksize = (s.heap.zone (zoneOf s.heap q)).zChunksize
  bytes : Set.EqOn s'.mem s.mem (Set.Ico q (q + blockSize s.heap q))

theorem Same.refl (s : Pool) (q : ℕ) : Same s s q := ⟨rfl, rfl, rfl, fun _ => rfl, Set.eqOn_refl _ _⟩

theorem Same.zoneOf_eq (hs : Same s s' q) : zoneOf s'.heap q = zoneOf s.heap q := by
  rw [zoneOf, hs.kup]
  rfl

theorem Same.size (hs : Same s s' q) : blockSize s'.heap q = blockSize s.heap q := by
  rw [blockSize, hs.kup, hs.zoneOf_eq]
  by_cases hlarge : (s.heap.memusage (q / pageSize)).type = .large
  · rw [if_pos hlarge, blockSize, if_pos hlarge]
  · rw [if_neg hlarge, hs.chunksize hlarge, blockSize, if_neg hlarge]

theorem Same.trans (h₁ : Same s s' q) (h₂ : Same s' s'' q) : Same s s'' q := by
  refine ⟨h₂.table.trans h₁.table, h₂.heapStart.trans h₁.heapStart, h₂.kup.trans h₁.kup, fun hsmall => ?_, ?_⟩
  · have hchunk := h₂.chunksize (by rwa [h₁.kup])
    rw [h₁.zoneOf_eq] at hchunk
    exact hchunk.trans (h₁.chunksize hsmall)
  · have hbytes := h₂.bytes
    rw [h₁.size] at hbytes
    exact hbytes.trans h₁.bytes

/-- The assignment stores outside of the block at `q`, and does not change what the block is. -/
structure Spares (s : Pool) (q : ℕ) (a : Assign) : Prop where
  out : a.addr s.table s.heap.pages.heapStart + 4 * a.words.length ≤ q ∨
    q + blockSize s.heap q ≤ a.addr s.table s.heap.pages.heapStart
  kup : ∀ x, a ≠ .memusage (q / pageSize) x
  chunksize : (s.heap.memusage (q / pageSize)).type ≠ .large → ∀ header, a = .zone (zoneOf s.heap q) header →
    header.zChunksize = (s.heap.zone (zoneOf s.heap q)).zChunksize

theorem Spares.same (ha : Spares s q a) : Same s (s.assign a) q := by
  refine ⟨rfl, ?_, ?_, fun hsmall => ?_, fun y hy => ?_⟩
  · cases a <;> rfl
  · cases a with
    | memusage p x =>
      refine Function.update_of_ne ?_ _ _
      rintro rfl
      exact ha.kup x rfl
    | _ => rfl
  · cases a with
    | zone z header =>
      by_cases hz : zoneOf s.heap q = z
      · rw [Pool.assign_heap, ← hz]
        exact (congrArg SlabZone.zChunksize zone_setZone_self).trans (ha.chunksize hsmall header (by rw [hz]))
      · exact congrArg SlabZone.zChunksize (zone_setZone_of_ne hz)
    | _ => rfl
  · have hout := ha.out
    have hlow := hy.1
    have hhigh := hy.2
    exact storeWords_of_notMem (by omega)

theorem Spares.of_same (ha : Spares s q a) (hs : Same s s' q) : Spares s' q a := by
  refine ⟨?_, ha.kup, fun hsmall header he => ?_⟩
  · rw [hs.table, hs.heapStart, hs.size]
    exact ha.out
  · rw [hs.kup] at hsmall
    rw [hs.zoneOf_eq] at he ⊢
    rw [hs.chunksize hsmall]
    exact ha.chunksize hsmall header he

/-- Assignments with the property `P` lead from the one pool to the other. -/
def Via (P : Assign → Prop) (s s' : Pool) : Prop := ∃ l : List Assign, (∀ a ∈ l, P a) ∧ s' = l.foldl Pool.assign s

section Via

variable {P Q : Assign → Prop}

theorem Via.refl (P : Assign → Prop) (s : Pool) : Via P s s := ⟨[], fun _ ha => absurd ha List.not_mem_nil, rfl⟩

theorem Via.one (ha : P a) : Via P s (s.assign a) := ⟨[a], fun _ hb => List.mem_singleton.mp hb ▸ ha, rfl⟩

theorem Via.trans (h₁ : Via P s s') (h₂ : Via P s' s'') : Via P s s'' := by
  obtain ⟨l₁, hl₁, rfl⟩ := h₁
  obtain ⟨l₂, hl₂, rfl⟩ := h₂
  exact ⟨l₁ ++ l₂, List.forall_mem_append.mpr ⟨hl₁, hl₂⟩, List.foldl_append.symm⟩

theorem Via.assign (hv : Via P s s') (ha : P a) : Via P s (s'.assign a) := hv.trans (Via.one ha)

theorem Via.mono (hv : Via P s s') (himp : ∀ a, P a → Q a) : Via Q s s' := by
  obtain ⟨l, hl, hs⟩ := hv
  exact ⟨l, fun a ha => himp a (hl a ha), hs⟩

theorem Via.same (hv : Via (Spares s q) s s') : Same s s' q := by
  have hall : ∀ (l : List Assign) (s₁ : Pool), Same s s₁ q → (∀ a ∈ l, Spares s q a) →
      Same s (l.foldl Pool.assign s₁) q := by
    intro l
    induction l with
    | nil => exact fun s₁ hs _ => hs
    | cons a l ih =>
      intro s₁ hs hl
      have ha := (hl a List.mem_cons_self).of_same hs
      exact ih _ (hs.trans ha.same) fun b hb => hl b (List.mem_cons_of_mem a hb)
  obtain ⟨l, hl, rfl⟩ := hv
  exact hall l s (Same.refl s q) hl

theorem Via.bounds (hv : Via P s s') : s'.table = s.table ∧
    s'.heap.pages.heapStart = s.heap.pages.heapStart ∧ s'.heap.pages.heapEnd = s.heap.pages.heapEnd := by
  obtain ⟨l, -, rfl⟩ := hv
  induction l generalizing s with
  | nil => exact ⟨rfl, rfl, rfl⟩
  | cons a l ih =>
    obtain ⟨htable, hstart, hend⟩ := @ih (s.assign a)
    have ha : (s.assign a).heap.pages.heapStart = s.heap.pages.heapStart ∧
        (s.assign a).heap.pages.heapEnd = s.heap.pages.heapEnd := by
      cases a <;> exact ⟨rfl, rfl⟩
    exact ⟨htable, hstart.trans ha.1, hend.trans ha.2⟩

/-- The blocks `live` are described and filled as before. -/
structure Leaves (live : List ℕ) (s s' : Pool) : Prop where
  bounds : s'.table = s.table ∧ s'.heap.pages.heapStart = s.heap.pages.heapStart ∧
    s'.heap.pages.heapEnd = s.heap.pages.heapEnd
  same : ∀ q ∈ live, Same s s' q

theorem Leaves.refl (live : List ℕ) (s : Pool) : Leaves live s s := ⟨⟨rfl, rfl, rfl⟩, fun q _ => Same.refl s q⟩

theorem Leaves.trans (h₁ : Leaves live s s') (h₂ : Leaves live s' s'') : Leaves live s s'' := by
  obtain ⟨⟨htable₁, hstart₁, hend₁⟩, hsame₁⟩ := h₁
  obtain ⟨⟨htable₂, hstart₂, hend₂⟩, hsame₂⟩ := h₂
  refine ⟨⟨htable₂.trans htable₁, hstart₂.trans hstart₁, hend₂.trans hend₁⟩, fun q hq => ?_⟩
  exact (hsame₁ q hq).trans (hsame₂ q hq)

/-- The assignment is to none of the blocks `live`. -/
def Spared (live : List ℕ) (s : Pool) (a : Assign) : Prop := ∀ q ∈ live, Spares s q a

theorem Via.leaves (hv : Via (Spared live s) s s') : Leaves live s s' :=
  ⟨hv.bounds, fun q hq => (hv.mono fun _ ha => ha q hq).same⟩

end Via

/-! ### Which assignments spare a block -/

/-- The words of `memusage` are in pages that are not handed out. -/
structure Tabled (s : Pool) (other : Multiset ℕ) : Prop where
  pages : ∀ i < s.heap.pages.heapEnd - s.heap.pages.heapStart, s.table + 4 * i / pageSize ∈ other
  bound : s.heap.pages.heapEnd * pageSize < 2 ^ 32

theorem Tabled.add (ht : Tabled s other) (l : Multiset ℕ) : Tabled s (other + l) :=
  ⟨fun i hi => Multiset.mem_add.mpr (Or.inl (ht.pages i hi)), ht.bound⟩

theorem Tabled.leaves (ht : Tabled s other) (hl : Leaves live s s') : Tabled s' other := by
  obtain ⟨htable, hstart, hend⟩ := hl.bounds
  refine ⟨fun i hi => ?_, ?_⟩
  · rw [htable]
    rw [hstart, hend] at hi
    exact ht.pages i hi
  · rw [hend]
    exact ht.bound

theorem Good.off_page (hg : Good h live v other) (hq : q ∈ live) (hp : p ∉ v.pages h.zonePageCnt) {lo hi : ℕ}
    (hlow : p * pageSize ≤ lo) (hhigh : hi ≤ p * pageSize + pageSize) (hlt : lo < hi) :
    hi ≤ q ∨ q + blockSize h q ≤ lo := by
  have hge := hg.block_ge hq
  by_contra hover
  obtain ⟨y, hy, hyq⟩ : ∃ y, (lo ≤ y ∧ y < hi) ∧ q ≤ y ∧ y < q + blockSize h q := ⟨max lo q, by omega, by omega⟩
  have hpage : y / pageSize = p := by
    rw [pageSize_eq] at hlow hhigh ⊢
    omega
  exact hp (hpage ▸ hg.block_page hq hyq.1 hyq.2)

theorem spares_static (q : ℕ) (hwords : a.words = []) (haddr : ∀ table heapStart, a.addr table heapStart = 0)
    (hkup : ∀ p x, a ≠ .memusage p x) (hzone : ∀ z header, a ≠ .zone z header) : Spares s q a := by
  refine ⟨Or.inl ?_, fun x => hkup _ x, fun _ header he => absurd he (hzone _ header)⟩
  rw [hwords, haddr]
  exact Nat.zero_le q

theorem spares_pageList (x : Option ℕ) : Spares s q (.pageList x) :=
  spares_static q rfl (fun _ _ => rfl) (fun _ _ he => Assign.noConfusion he) fun _ _ he => Assign.noConfusion he

theorem spares_zoneArray (zi : ℕ) (x : Option ℕ) : Spares s q (.zoneArray zi x) :=
  spares_static q rfl (fun _ _ => rfl) (fun _ _ he => Assign.noConfusion he) fun _ _ he => Assign.noConfusion he

theorem spares_zoneFree (x : Option ℕ) : Spares s q (.zoneFree x) :=
  spares_static q rfl (fun _ _ => rfl) (fun _ _ he => Assign.noConfusion he) fun _ _ he => Assign.noConfusion he

theorem spares_zoneFreeCnt (x : ℤ) : Spares s q (.zoneFreeCnt x) :=
  spares_static q rfl (fun _ _ => rfl) (fun _ _ he => Assign.noConfusion he) fun _ _ he => Assign.noConfusion he

section Spares

variable (hg : Good s.heap live v other) (hq : q ∈ live)

include hg hq

theorem spares_page (hp : p ∉ v.pages s.heap.zonePageCnt) (head : PageHead) : Spares s q (.page p head) := by
  refine ⟨hg.off_page hq hp le_rfl ?_ ?_, fun _ he => Assign.noConfusion he, fun _ _ he => Assign.noConfusion he⟩
  · simp only [Assign.addr, Assign.words, List.length_cons, List.length_nil, pageSize_eq]
    omega
  · simp only [Assign.addr, Assign.words, List.length_cons, List.length_nil]
    omega

theorem spares_memusage (ht : Tabled s other) (hlow : s.heap.pages.heapStart ≤ p) (hhigh : p < s.heap.pages.heapEnd)
    (hp : p ∉ v.pages s.heap.zonePageCnt) (x : MemUsage) : Spares s q (.memusage p x) := by
  have hpage : s.table + 4 * (p - s.heap.pages.heapStart) / pageSize ∉ v.pages s.heap.zonePageCnt :=
    fun hmem => hg.owned.disjoint hmem (ht.pages _ (by omega))
  refine ⟨hg.off_page hq hpage ?_ ?_ ?_, fun y he => ?_, fun _ _ he => Assign.noConfusion he⟩
  · simp only [Assign.addr, pageSize_eq]
    omega
  · simp only [Assign.addr, Assign.words, List.length_cons, List.length_nil, pageSize_eq]
    omega
  · simp only [Assign.words, List.length_cons, List.length_nil]
    omega
  · cases he
    exact hp (hg.live_page hq)

theorem spares_zone (hz : z ∈ v.zones) {header : SlabZone} (hsize : header.zChunksize = (s.heap.zone z).zChunksize) :
    Spares s q (.zone z header) := by
  have hcnt := hg.config.cnt_pos
  have hge := hg.block_ge hq
  have h36 : sizeofSlabZone = 36 := rfl
  refine ⟨?_, fun _ he => Assign.noConfusion he, fun _ header' he => ?_⟩
  · simp only [Assign.addr, Assign.words, List.length_cons, List.length_nil]
    by_contra hover
    obtain ⟨y, hy, hyq⟩ : ∃ y, (z * pageSize ≤ y ∧ y < z * pageSize + 36) ∧ q ≤ y ∧ y < q + blockSize s.heap q :=
      ⟨max (z * pageSize) q, by omega, by omega⟩
    have hpage : z ≤ y / pageSize ∧ y / pageSize < z + s.heap.zonePageCnt := by
      rw [pageSize_eq] at hy ⊢
      omega
    obtain ⟨hzones, hlarge, -⟩ := hg.owned.apart hz hpage
    rcases hg.block_cases hq with ⟨w, hw, -, -, -, hwithin⟩ | ⟨x, hx, rfl, hsize'⟩
    · have hwz : w = z := by
        refine hzones w hw ?_
        rw [pageSize_eq] at hwithin ⊢
        omega
      rw [hwz] at hwithin
      omega
    · refine hlarge x hx ?_
      rw [pageSize_eq] at hyq hsize' ⊢
      omega
  · cases he
    exact hsize

theorem spares_newZone (hp : z ∉ v.pages s.heap.zonePageCnt) (header : SlabZone) : Spares s q (.zone z header) := by
  refine ⟨hg.off_page hq hp le_rfl ?_ ?_, fun _ he => Assign.noConfusion he, fun hsmall header' he => ?_⟩
  · simp only [Assign.addr, Assign.words, List.length_cons, List.length_nil, pageSize_eq]
    omega
  · simp only [Assign.addr, Assign.words, List.length_cons, List.length_nil]
    omega
  · have hcnt := hg.config.cnt_pos
    rcases hg.block_cases hq with ⟨w, hw, -, -, hzone, -⟩ | ⟨x, hx, rfl, -⟩
    · cases he
      rw [hzone] at hp
      exact absurd (Multiset.mem_add.mpr (Or.inl (mem_zone_pages hw (by omega)))) hp
    · rw [(hg.large_block hx).1] at hsmall
      exact absurd rfl hsmall

theorem spares_cNext (hc : c ∈ live) (hne : c ≠ q) (x : Option ℕ) : Spares s q (.cNext c x) := by
  have hge := hg.block_ge hc
  have hapart := hg.cell_apart (hg.cell hc) (hg.cell hq) hne
  refine ⟨?_, fun _ he => Assign.noConfusion he, fun _ _ he => Assign.noConfusion he⟩
  simp only [Assign.addr, Assign.words, List.length_cons, List.length_nil]
  omega

end Spares

/-! ### Pages are taken and given back -/

/-- An assignment to the list of pages or to the head of one of the pages `F`. -/
def InPages (F : Set ℕ) (a : Assign) : Prop := (∃ x, a = .pageList x) ∨ ∃ p ∈ F, ∃ head, a = .page p head

theorem spared_inPages {F : Set ℕ} (hg : Good s.heap live v other) (hF : ∀ p ∈ F, p ∉ v.pages s.heap.zonePageCnt)
    (ha : InPages F a) : Spared live s a := by
  intro q hq
  rcases ha with ⟨x, rfl⟩ | ⟨p, hp, head, rfl⟩
  · exact spares_pageList x
  · exact spares_page hg hq (hF p hp) head

section Pages

variable {F : Set ℕ} {n npages : ℕ} {prev : Option ℕ} {rs : List (ℕ × ℕ)}

theorem setPrev_via (hprev : ∀ b ∈ prev, b ∈ F) (x : Option ℕ) : Via (InPages F) s (s.setPrev prev x) := by
  cases prev with
  | none => exact Via.one (Or.inl ⟨x, rfl⟩)
  | some b => exact Via.one (Or.inr ⟨b, hprev b rfl, _, rfl⟩)

/-- The pages of the runs are among `F`. -/
def Inside (F : Set ℕ) (rs : List (ℕ × ℕ)) : Prop := ∀ r ∈ rs, 0 < r.2 ∧ ∀ i < r.2, r.1 + i ∈ F

theorem Inside.first {r : ℕ × ℕ} (hr : Inside F (r :: rs)) : r.1 ∈ F := by
  obtain ⟨hpos, hmem⟩ := hr r List.mem_cons_self
  exact hmem 0 hpos

theorem page_via (hn : n ∈ F) (head : PageHead) : Via (InPages F) s (s.assign (.page n head)) :=
  Via.one (Or.inr ⟨n, hn, head, rfl⟩)

theorem allocLoop_via {r : Option ℕ} (fuel : ℕ) (hc : Chained s.heap.pages.mem (s.heap.pages.link prev) rs)
    (hrs : Inside F rs) (hprev : ∀ b ∈ prev, b ∈ F) (hloop : s.allocLoop npages fuel prev = some (r, s')) :
    Via (InPages F) s s' := by
  induction fuel generalizing prev rs with
  | zero => cases hloop
  | succ fuel ih =>
    rw [Pool.allocLoop] at hloop
    cases rs with
    | nil =>
      rw [show s.heap.pages.link prev = none from hc] at hloop
      cases hloop
      exact Via.refl _ _
    | cons x rs =>
      obtain ⟨hlink, hpage, hnext⟩ := hc
      change Chained s.heap.pages.mem (s.heap.pages.link (some x.1)) rs at hnext
      simp only [hlink, hpage] at hloop
      split at hloop
      · rename_i hlt
        cases hloop
        exact (page_via ((hrs x List.mem_cons_self).2 npages hlt) _).trans (setPrev_via hprev _)
      · split at hloop
        · cases hloop
          exact setPrev_via hprev _
        · refine ih hnext (fun y hy => hrs y (List.mem_cons_of_mem x hy)) (fun b hb => ?_) hloop
          cases hb
          exact hrs.first

theorem joinBehind_via {b : ℕ} (hb : b ∈ F) : Via (InPages F) s (s.joinBehind b npages) := by
  unfold Pool.joinBehind
  simp only
  split
  · exact page_via hb _
  · split
    · exact (page_via hb _).trans (page_via hb _)
    · exact page_via hb _

theorem freeLoop_via (fuel : ℕ) (hc : Chained s.heap.pages.mem (s.heap.pages.link prev) rs) (hrs : Inside F rs)
    (hprev : ∀ b ∈ prev, b ∈ F) (hn : n ∈ F) (hloop : s.freeLoop n npages fuel prev = some s') :
    Via (InPages F) s s' := by
  induction fuel generalizing prev rs with
  | zero => cases hloop
  | succ fuel ih =>
    rw [Pool.freeLoop] at hloop
    cases rs with
    | nil =>
      rw [show s.heap.pages.link prev = none from hc] at hloop
      cases hloop
      exact (page_via hn _).trans (setPrev_via hprev _)
    | cons x rs =>
      obtain ⟨hlink, hpage, hnext⟩ := hc
      change Chained s.heap.pages.mem (s.heap.pages.link (some x.1)) rs at hnext
      have hx := hrs.first
      simp only [hlink] at hloop
      split at hloop
      · split at hloop
        · cases hloop
          exact joinBehind_via hx
        · split at hloop
          · cases hloop
            exact (page_via hn _).trans (setPrev_via hprev _)
          · split at hloop
            · cases hloop
              exact (page_via hn _).trans (setPrev_via hprev _)
            · refine ih hnext (fun y hy => hrs y (List.mem_cons_of_mem x hy)) (fun b hb => ?_) hloop
              cases hb
              exact hx
      · cases hloop

theorem inside_points (hsep : Separated rs) (hF : ∀ p ∈ points rs, p ∈ F) : Inside F rs :=
  fun r hr => ⟨hsep.pos r hr, fun i hi => hF _ (mem_points.mpr ⟨r, hr, by omega, by omega⟩)⟩

theorem rtPageAlloc_via {r : Option ℕ} (hlisted : Listed s.heap.pages rs)
    (halloc : s.rtPageAlloc npages = some (r, s')) : Via (InPages {p | p ∈ points rs}) s s' := by
  rw [Pool.rtPageAlloc] at halloc
  split at halloc
  · cases halloc
    exact Via.refl _ _
  · have hchained : Chained s.heap.pages.mem (s.heap.pages.link none) rs := hlisted.chained
    have hinside : Inside {p | p ∈ points rs} rs := inside_points hlisted.separated fun p hp => hp
    exact allocLoop_via _ hchained hinside (fun b hb => by cases hb) halloc

theorem rtPageFree_via (hlisted : Listed s.heap.pages rs) (hfree : s.rtPageFree n npages = some s') :
    Via (InPages {p | p ∈ points rs ∨ p = n}) s s' := by
  rw [Pool.rtPageFree] at hfree
  split at hfree
  · have hchained : Chained s.heap.pages.mem (s.heap.pages.link none) rs := hlisted.chained
    exact freeLoop_via _ hchained (inside_points hlisted.separated fun p hp => Or.inl hp)
      (fun b hb => by cases hb) (Or.inr rfl) hfree
  · cases hfree

end Pages

theorem markLoop_via {P : Assign → Prop} {value : ℕ → MemUsage} {n : ℕ}
    (hP : ∀ i < n, P (.memusage (z + i) (value i))) : Via P s (Pool.markLoop value z n s) := by
  induction n with
  | zero => exact Via.refl _ _
  | succ n ih => exact (ih fun i hi => hP i (Nat.lt_succ_of_lt hi)).assign (hP n (Nat.lt_succ_self n))

end RtThread.Memory.Slab
