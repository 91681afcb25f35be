import RtThread.Memory.SlabZones

/-!
# The lists of zones

A zone with free chunks is in the list of its index, once, unless it is one of the wholly free zones that
are kept on `zone_free`. Each assignment to a link is a change of one of the lists.
-/

namespace RtThread.Memory.Slab

open RtThread.Lib.Chain

/-- The zones, the lists of them, the free chunks of each, and the runs of pages that were handed out as they are. -/
structure View where
  zones : Finset ℕ
  array : ℕ → List ℕ
  kept : List ℕ
  chunks : ℕ → List ℕ
  large : Finset (ℕ × ℕ)

def Heap.next (h : Heap) (z : ℕ) : Option ℕ := (h.zone z).zNext

structure Chains (h : Heap) (v : View) : Prop where
  array : ∀ zi, Linked h.next (h.zoneArray zi) (v.array zi)
  array_nodup : ∀ zi, (v.array zi).Nodup
  kept : Linked h.next h.zoneFree v.kept
  kept_nodup : v.kept.Nodup
  kept_cnt : h.zoneFreeCnt = v.kept.length

/-- Each zone is in the list it belongs to. -/
structure Placed (h : Heap) (v : View) : Prop where
  mem_array : ∀ zi z, z ∈ v.array zi ↔
    z ∈ v.zones ∧ (h.zone z).zZoneindex = zi ∧ 0 < (h.zone z).zNfree ∧ z ∉ v.kept
  mem_kept : ∀ z ∈ v.kept, z ∈ v.zones ∧ (h.zone z).zNfree = (h.zone z).zNmax
  magic : ∀ z ∈ v.zones, z ∉ v.kept → (h.zone z).zMagic = zallocSlabMagic

variable {h h' : Heap} {v v' : View} {z zi : ℕ} {zone : SlabZone}

/-! ### Chains -/

@[simp] theorem zone_setZone_self : (h.setZone z zone).zone z = zone := Function.update_self ..

theorem zone_setZone_of_ne {w : ℕ} (hw : w ≠ z) : (h.setZone z zone).zone w = h.zone w := Function.update_of_ne hw ..

theorem next_setZone : (h.setZone z zone).next = Function.update h.next z zone.zNext := by
  funext w
  by_cases hw : w = z
  · rw [hw, Heap.next, zone_setZone_self, Function.update_self]
  · rw [Heap.next, zone_setZone_of_ne hw, Function.update_of_ne hw, Heap.next]

/-- One list of `zone_array` is replaced, and the links of the zones in the other lists are as before. -/
theorem Chains.change (hc : Chains h v) {l : List ℕ} (harray : ∀ zj, zj ≠ zi → h'.zoneArray zj = h.zoneArray zj)
    (hfree : h'.zoneFree = h.zoneFree ∧ h'.zoneFreeCnt = h.zoneFreeCnt)
    (hnext : ∀ w, (w ∈ v.kept ∨ ∃ zj, zj ≠ zi ∧ w ∈ v.array zj) → h'.next w = h.next w)
    (hl : Linked h'.next (h'.zoneArray zi) l) (hnodup : l.Nodup) :
    Chains h' { v with array := Function.update v.array zi l } := by
  refine ⟨fun zj => ?_, fun zj => ?_, ?_, hc.kept_nodup, hfree.2.trans hc.kept_cnt⟩
  · by_cases hz : zj = zi
    · simp only [hz, Function.update_self]
      exact hl
    · simp only [Function.update_of_ne hz, harray zj hz]
      exact (hc.array zj).congr fun w hw => hnext w (Or.inr ⟨zj, hz, hw⟩)
  · by_cases hz : zj = zi
    · simp only [hz, Function.update_self]
      exact hnodup
    · simp only [Function.update_of_ne hz]
      exact hc.array_nodup zj
  · rw [hfree.1]
    exact hc.kept.congr fun w hw => hnext w (Or.inl hw)

theorem Chains.setData (hc : Chains h v) (hnext : zone.zNext = (h.zone z).zNext) : Chains (h.setZone z zone) v := by
  have hsame : (h.setZone z zone).next = h.next := by
    rw [next_setZone, hnext]
    exact Function.update_eq_self z h.next
  refine ⟨fun zi => ?_, hc.array_nodup, ?_, hc.kept_nodup, hc.kept_cnt⟩
  · rw [hsame]
    exact hc.array zi
  · rw [hsame]
    exact hc.kept

theorem zoneArray_setArray_of_ne {zj : ℕ} (hz : zj ≠ zi) (x : Option ℕ) :
    (h.setArray zi x).zoneArray zj = h.zoneArray zj := Function.update_of_ne hz ..

theorem zoneArray_setArray_self (x : Option ℕ) : (h.setArray zi x).zoneArray zi = x := Function.update_self ..

theorem Chains.push (hc : Chains h v) (hout : ∀ zi, z ∉ v.array zi) (hkept : z ∉ v.kept)
    (hnext : zone.zNext = h.zoneArray zi) :
    Chains ((h.setZone z zone).setArray zi (some z)) { v with array := Function.update v.array zi (z :: v.array zi) } := by
  have hsame : ((h.setZone z zone).setArray zi (some z)).next = Function.update h.next z (h.zoneArray zi) := by
    rw [← hnext]
    exact next_setZone
  refine hc.change (fun zj hz => zoneArray_setArray_of_ne hz _) ⟨rfl, rfl⟩ (fun w hw => ?_) ?_
    (List.nodup_cons.mpr ⟨hout zi, hc.array_nodup zi⟩)
  · rw [hsame]
    refine Function.update_of_ne ?_ _ _
    rintro rfl
    rcases hw with hw | ⟨zj, -, hw⟩
    · exact hkept hw
    · exact hout zj hw
  · rw [hsame, zoneArray_setArray_self]
    exact (hc.array zi).push (hout zi)

theorem Placed.other (hp : Placed h v) (hz : z ∈ v.array zi) : z ∉ v.kept ∧ ∀ zj, zj ≠ zi → z ∉ v.array zj := by
  obtain ⟨-, hindex, -, hkept⟩ := (hp.mem_array zi z).mp hz
  exact ⟨hkept, fun zj hne hmem => hne (((hp.mem_array zj z).mp hmem).2.1.symm.trans hindex)⟩

theorem Chains.pop (hc : Chains h v) (hp : Placed h v) {l : List ℕ} (hl : v.array zi = z :: l) :
    Chains ((h.setArray zi (h.zone z).zNext).setZone z zone) { v with array := Function.update v.array zi l } := by
  have hlinked := hc.array zi
  have hnodup := hc.array_nodup zi
  obtain ⟨hkept, hother⟩ := hp.other (show z ∈ v.array zi by rw [hl]; exact List.mem_cons_self)
  rw [hl] at hlinked hnodup
  obtain ⟨hz, hnodup⟩ := List.nodup_cons.mp hnodup
  have hsame : ((h.setArray zi (h.zone z).zNext).setZone z zone).next = Function.update h.next z zone.zNext := next_setZone
  refine hc.change (fun zj hz => zoneArray_setArray_of_ne hz _) ⟨rfl, rfl⟩ (fun w hw => ?_) ?_ hnodup
  · rw [hsame]
    refine Function.update_of_ne ?_ _ _
    rintro rfl
    rcases hw with hw | ⟨zj, hne, hw⟩
    · exact hkept hw
    · exact hother zj hne hw
  · rw [hsame]
    show Linked _ ((h.setArray zi (h.zone z).zNext).zoneArray zi) l
    rw [zoneArray_setArray_self]
    exact Linked.update hlinked.2 hz _

theorem unlinkLoop_eq {us vs : List ℕ} (fuel : ℕ) (pz : Option ℕ) (hl : Linked h.next (h.link zi pz) (us ++ z :: vs))
    (hz : z ∉ us) (hfuel : us.length < fuel) :
    unlinkLoop h zi z fuel pz = some (h.setLink zi (us.getLast?.or pz) (h.zone z).zNext) := by
  induction us generalizing fuel pz with
  | nil =>
    obtain ⟨fuel, rfl⟩ := Nat.exists_eq_succ_of_ne_zero (Nat.ne_of_gt hfuel)
    rw [unlinkLoop, hl.1, Option.bind_some, if_pos rfl]
    rfl
  | cons a us ih =>
    obtain ⟨fuel, rfl⟩ := Nat.exists_eq_succ_of_ne_zero (Nat.ne_of_gt (Nat.zero_lt_of_lt hfuel))
    obtain ⟨hza, hz⟩ := not_or.mp (mt List.mem_cons.mpr hz)
    rw [unlinkLoop, hl.1, Option.bind_some, if_neg (Ne.symm hza), ih fuel (some a) hl.2 hz (Nat.lt_of_succ_lt_succ hfuel)]
    rw [List.getLast?_cons]
    cases us.getLast? <;> rfl

/-- The pages and what is said about them are the same. -/
structure Frame (h h' : Heap) : Prop where
  pages : h'.pages = h.pages
  memusage : h'.memusage = h.memusage
  zoneSize : h'.zoneSize = h.zoneSize
  zoneLimit : h'.zoneLimit = h.zoneLimit
  zonePageCnt : h'.zonePageCnt = h.zonePageCnt

theorem Frame.trans {h'' : Heap} (h₁ : Frame h h') (h₂ : Frame h' h'') : Frame h h'' :=
  ⟨h₂.pages.trans h₁.pages, h₂.memusage.trans h₁.memusage, h₂.zoneSize.trans h₁.zoneSize,
    h₂.zoneLimit.trans h₁.zoneLimit, h₂.zonePageCnt.trans h₁.zonePageCnt⟩

theorem frame_setZone : Frame h (h.setZone z zone) := ⟨rfl, rfl, rfl, rfl, rfl⟩

/-- Only links of zones and the heads of lists differ. -/
structure Relinked (h h' : Heap) : Prop where
  zone : ∀ w, ∃ next, h'.zone w = { h.zone w with zNext := next }
  cNext : h'.cNext = h.cNext
  frame : Frame h h'

theorem relinked_setLink (pz x : Option ℕ) : Relinked h (h.setLink zi pz x) := by
  cases pz with
  | none => exact ⟨fun w => ⟨_, rfl⟩, rfl, rfl, rfl, rfl, rfl, rfl⟩
  | some b =>
    refine ⟨fun w => ?_, rfl, rfl, rfl, rfl, rfl, rfl⟩
    by_cases hw : w = b
    · rw [hw]
      exact ⟨x, zone_setZone_self⟩
    · exact ⟨_, zone_setZone_of_ne hw⟩

theorem Chains.unlink (hc : Chains h v) (hp : Placed h v) (hz : z ∈ v.array zi) {fuel : ℕ}
    (hfuel : (v.array zi).length ≤ fuel) :
    ∃ h' l, unlinkLoop h zi z fuel none = some h' ∧ Chains h' { v with array := Function.update v.array zi l } ∧
      (v.array zi).Perm (z :: l) ∧ Relinked h h' := by
  have hlinked := hc.array zi
  have hnodup := hc.array_nodup zi
  obtain ⟨us, vs, hl⟩ := List.append_of_mem hz
  rw [hl] at hlinked hnodup hfuel
  have hout : z ∉ us := fun hmem => (List.nodup_append.mp hnodup).2.2 z hmem z List.mem_cons_self rfl
  have hfuel' : us.length < fuel := by
    rw [List.length_append, List.length_cons] at hfuel
    omega
  refine ⟨_, us ++ vs, unlinkLoop_eq fuel none hlinked hout hfuel', ?_, hl ▸ List.perm_middle, relinked_setLink _ _⟩
  have hnodup' : (us ++ vs).Nodup := (List.nodup_cons.mp (List.nodup_middle.mp hnodup)).2
  rcases List.eq_nil_or_concat us with rfl | ⟨ws, b, rfl⟩
  · refine hc.change (fun zj hz => zoneArray_setArray_of_ne hz _) ⟨rfl, rfl⟩ (fun w _ => rfl) ?_ hnodup'
    show Linked h.next ((h.setArray zi (h.zone z).zNext).zoneArray zi) vs
    rw [zoneArray_setArray_self]
    exact hlinked.2
  · -- the link is the one of the zone `b` before it
    rw [List.concat_eq_append, List.append_assoc, List.singleton_append] at *
    have hlast : (ws ++ [b]).getLast?.or none = some b := by simp
    have hsame : (h.setLink zi (some b) (h.zone z).zNext).next = Function.update h.next b (h.zone z).zNext := next_setZone
    obtain ⟨hkept, hother⟩ := hp.other (show b ∈ v.array zi by rw [hl]; simp)
    rw [hlast]
    refine hc.change (fun zj _ => rfl) ⟨rfl, rfl⟩ (fun w hw => ?_) ?_ hnodup'
    · rw [hsame]
      refine Function.update_of_ne ?_ _ _
      rintro rfl
      rcases hw with hw | ⟨zj, hne, hw⟩
      · exact hkept hw
      · exact hother zj hne hw
    · rw [hsame]
      exact Linked.remove hlinked hnodup

theorem Chains.keep (hc : Chains h v) (hout : ∀ zi, z ∉ v.array zi) (hkept : z ∉ v.kept) :
    Chains (keepZone h z) { v with kept := z :: v.kept } := by
  have hsame : (keepZone h z).next = Function.update h.next z h.zoneFree := next_setZone
  refine ⟨fun zi => ?_, hc.array_nodup, ?_, List.nodup_cons.mpr ⟨hkept, hc.kept_nodup⟩, ?_⟩
  · rw [hsame]
    exact (hc.array zi).update (hout zi) _
  · rw [hsame]
    exact hc.kept.push hkept
  · show h.zoneFreeCnt + 1 = ((z :: v.kept).length : ℤ)
    rw [hc.kept_cnt, List.length_cons]
    norm_cast

/-- The first zone leaves `zone_free`; `h'` may have other pages. -/
theorem Chains.unkeep (hc : Chains h v) {l : List ℕ} (hl : v.kept = z :: l) (hzone : h'.zone = h.zone)
    (harray : h'.zoneArray = h.zoneArray) (hfree : h'.zoneFree = (h.zone z).zNext)
    (hcnt : h'.zoneFreeCnt = h.zoneFreeCnt - 1) : Chains h' { v with kept := l } := by
  have hsame : h'.next = h.next := by
    funext w
    rw [Heap.next, Heap.next, hzone]
  have hlinked := hc.kept
  have hnodup := hc.kept_nodup
  have hlen := hc.kept_cnt
  rw [hl] at hlinked hnodup hlen
  refine ⟨fun zi => ?_, hc.array_nodup, ?_, (List.nodup_cons.mp hnodup).2, ?_⟩
  · rw [hsame, harray]
    exact hc.array zi
  · rw [hsame, hfree]
    exact hlinked.2
  · rw [hcnt, hlen, List.length_cons]
    push_cast
    ring

/-! ### Places -/

/-- What the place of a zone depends on. -/
def SlabZone.SamePlace (zone zone' : SlabZone) : Prop :=
  zone'.zZoneindex = zone.zZoneindex ∧ zone'.zNfree = zone.zNfree ∧ zone'.zNmax = zone.zNmax ∧ zone'.zMagic = zone.zMagic

theorem Placed.change (hp : Placed h v) (z : ℕ) (hother : ∀ w, w ≠ z → (h.zone w).SamePlace (h'.zone w) ∧
      (w ∈ v'.zones ↔ w ∈ v.zones) ∧ (w ∈ v'.kept ↔ w ∈ v.kept) ∧ ∀ zi, w ∈ v'.array zi ↔ w ∈ v.array zi)
    (harray : ∀ zi, z ∈ v'.array zi ↔
      z ∈ v'.zones ∧ (h'.zone z).zZoneindex = zi ∧ 0 < (h'.zone z).zNfree ∧ z ∉ v'.kept)
    (hkept : z ∈ v'.kept → z ∈ v'.zones ∧ (h'.zone z).zNfree = (h'.zone z).zNmax)
    (hmagic : z ∈ v'.zones → z ∉ v'.kept → (h'.zone z).zMagic = zallocSlabMagic) : Placed h' v' := by
  refine ⟨fun zi w => ?_, fun w hw => ?_, fun w hw hk => ?_⟩
  · by_cases hwz : w = z
    · rw [hwz]
      exact harray zi
    · obtain ⟨⟨hindex, hnfree, -, -⟩, hzones, hkeeps, hlist⟩ := hother w hwz
      rw [hlist, hzones, hkeeps, hindex, hnfree]
      exact hp.mem_array zi w
  · by_cases hwz : w = z
    · rw [hwz] at hw ⊢
      exact hkept hw
    · obtain ⟨⟨-, hnfree, hnmax, -⟩, hzones, hkeeps, -⟩ := hother w hwz
      rw [hzones, hnfree, hnmax]
      exact hp.mem_kept w (hkeeps.mp hw)
  · by_cases hwz : w = z
    · rw [hwz] at hw hk ⊢
      exact hmagic hw hk
    · obtain ⟨⟨-, -, -, hm⟩, hzones, hkeeps, -⟩ := hother w hwz
      rw [hm]
      exact hp.magic w (hzones.mp hw) fun hmem => hk (hkeeps.mpr hmem)

theorem mem_update_list {array : ℕ → List ℕ} {l : List ℕ} {w : ℕ} (hl : w ∈ l ↔ w ∈ array zi) (zj : ℕ) :
    w ∈ Function.update array zi l zj ↔ w ∈ array zj := by
  by_cases hz : zj = zi
  · rw [hz, Function.update_self, hl]
  · rw [Function.update_of_ne hz]

theorem mem_update_list_self {array : ℕ → List ℕ} {l : List ℕ} {P : Prop} (hl : z ∈ l ↔ P)
    (hout : ∀ zj, zj ≠ zi → z ∉ array zj) (zj : ℕ) : z ∈ Function.update array zi l zj ↔ zi = zj ∧ P := by
  by_cases hz : zj = zi
  · rw [hz, Function.update_self, hl]
    exact (and_iff_right rfl).symm
  · rw [Function.update_of_ne hz]
    exact iff_of_false (hout zj hz) fun h => hz h.1.symm

end RtThread.Memory.Slab
