import RtThread.Memory.Slab

/-!
# The chunks of a zone

The index of a zone and its chunk size determine each other. A zone has chunks that were never used,
those from `z_uindex + 1` on, free chunks in a list, and chunks that are held.
-/

namespace RtThread.Memory.Slab

open RtThread.Lib.Chain RtThread.Lib.Word

/-! ### Sizes -/

/-- The chunk size of the zones with an index. -/
def chunkSizeOf (zi : ℕ) : ℕ :=
  if zi < 16 then (zi + 1) * 8
  else if zi < 24 then (zi - 7) * 16
  else if zi < 32 then (zi - 15) * 32
  else if zi < 40 then (zi - 23) * 64
  else if zi < 48 then (zi - 31) * 128
  else if zi < 56 then (zi - 39) * 256
  else if zi < 64 then (zi - 47) * 512
  else (zi - 55) * 1024

theorem alignUp_eq (j : ℕ) {n : ℕ} (h : n + (2 ^ j - 1) < 2 ^ 32) :
    ∃ m, alignUp j n = m * 2 ^ j ∧ n ≤ m * 2 ^ j ∧ m * 2 ^ j < n + 2 ^ j := by
  obtain ⟨hle, hlt⟩ := alignUp_spec h
  obtain ⟨m, hm⟩ := dvd_alignUp j n
  rw [Nat.mul_comm] at hm
  rw [hm] at hle hlt
  exact ⟨m, hm, hle, hlt⟩

/-- `x` is an index and the chunk size of it, and `n` bytes fit into a chunk. -/
structure Fits (n : ℕ) (x : ℕ × ℕ) : Prop where
  index : x.1 < nzones
  size : x.2 = chunkSizeOf x.1
  le : n ≤ x.2
  limit : x.2 ≤ 16384
  limit_half : n < 8192 → x.2 ≤ 8192

theorem chunkSizeOf_add : ∀ j < 11, 4 ≤ j → ∀ m < 17, 8 ≤ m → chunkSizeOf (m + (8 * (j - 3) - 1)) = m * 2 ^ j := by
  decide

theorem fits_branch {j n : ℕ} (hj : 4 ≤ j) (hj' : j ≤ 10) (hlow : 2 ^ (j + 3) ≤ n) (hhigh : n < 2 ^ (j + 4)) :
    Fits n (alignUp j n / 2 ^ j + (8 * (j - 3) - 1), alignUp j n) := by
  have hpow : 2 ^ (j + 4) ≤ 2 ^ 14 := Nat.pow_le_pow_right (by decide) (by omega)
  have hlow' : 2 ^ (j + 3) = 8 * 2 ^ j := by ring
  have hhigh' : 2 ^ (j + 4) = 16 * 2 ^ j := by ring
  obtain ⟨m, hm, hle, hup⟩ := @alignUp_eq j n (by omega)
  have hm8 : 8 ≤ m := Nat.le_of_mul_le_mul_right (by omega) (Nat.two_pow_pos j)
  have hm16 : m < 17 := by
    refine Nat.lt_of_mul_lt_mul_right (a := 2 ^ j) ?_
    omega
  rw [hm, Nat.mul_div_cancel m (Nat.two_pow_pos j)]
  refine ⟨?_, (chunkSizeOf_add j (by omega) hj m hm16 hm8).symm, hle, ?_, fun hn => ?_⟩
  · show m + (8 * (j - 3) - 1) < 72
    omega
  · show m * 2 ^ j ≤ 16384
    have := Nat.mul_le_mul_right (2 ^ j) (Nat.le_of_lt_succ hm16)
    omega
  · show m * 2 ^ j ≤ 8192
    have hj9 : j ≤ 9 := by
      by_contra hlt
      rw [show j = 10 by omega] at hlow
      omega
    have hpow9 : 2 ^ j ≤ 2 ^ 9 := Nat.pow_le_pow_right (by decide) hj9
    have := Nat.mul_le_mul_right (2 ^ j) (Nat.le_of_lt_succ hm16)
    omega

theorem zoneindex_spec {n : ℕ} (hpos : 0 < n) (hlt : n < 16384) : Fits n (zoneindex n) := by
  unfold zoneindex
  split_ifs
  · obtain ⟨m, hm, hle, hup⟩ := @alignUp_eq 3 n (by omega)
    simp only [hm, show m * 2 ^ 3 / 8 = m by omega, sub_of_le (show 1 ≤ m by omega) (show m < 2 ^ 32 by omega)]
    refine ⟨?_, ?_, hle, ?_, fun _ => ?_⟩
    · show m - 1 < 72
      omega
    · show m * 2 ^ 3 = chunkSizeOf (m - 1)
      rw [chunkSizeOf, if_pos (by omega)]
      omega
    · show m * 2 ^ 3 ≤ 16384
      omega
    · show m * 2 ^ 3 ≤ 8192
      omega
  · exact @fits_branch 4 n (by decide) (by decide) (by omega) (by omega)
  · exact @fits_branch 5 n (by decide) (by decide) (by omega) (by omega)
  · exact @fits_branch 6 n (by decide) (by decide) (by omega) (by omega)
  · exact @fits_branch 7 n (by decide) (by decide) (by omega) (by omega)
  · exact @fits_branch 8 n (by decide) (by decide) (by omega) (by omega)
  · exact @fits_branch 9 n (by decide) (by decide) (by omega) (by omega)
  · exact @fits_branch 10 n (by decide) (by decide) (by omega) (by omega)

theorem layout_spec : ∀ zi < nzones, 8 ≤ chunkSizeOf zi ∧ sizeofSlabZone ≤ chunkOffset (chunkSizeOf zi) ∧
    chunkOffset (chunkSizeOf zi) ≤ sizeofSlabZone + chunkSizeOf zi := by decide

/-! ### One zone -/

def SlabZone.chunkAt (zone : SlabZone) (i : ℕ) : ℕ := zone.zBaseptr + i * zone.zChunksize

/-- What the header of the zone `z` says, apart from the link and the magic number; `chunks` are its free chunks. -/
structure ZoneOk (zoneSize : ℕ) (cNext : ℕ → Option ℕ) (z : ℕ) (zone : SlabZone) (chunks : List ℕ) : Prop where
  index : zone.zZoneindex < nzones
  size : zone.zChunksize = chunkSizeOf zone.zZoneindex
  base : z * pageSize + sizeofSlabZone ≤ zone.zBaseptr
  fits : zone.zBaseptr + zone.zNmax * zone.zChunksize ≤ z * pageSize + zoneSize
  room : 2 ≤ zone.zNmax
  uindex : zone.zUindex < zone.zNmax
  linked : Linked cNext zone.zFreechunk chunks
  nodup : chunks.Nodup
  chunk : ∀ c ∈ chunks, ∃ i ≤ zone.zUindex, c = zone.chunkAt i
  nfree : zone.zNfree = zone.zNmax - 1 - zone.zUindex + chunks.length

def Held (zone : SlabZone) (chunks : List ℕ) (c : ℕ) : Prop := c ∉ chunks ∧ ∃ i ≤ zone.zUindex, c = zone.chunkAt i

variable {zoneSize z : ℕ} {cNext : ℕ → Option ℕ} {zone : SlabZone} {chunks : List ℕ} {c : ℕ}

theorem ZoneOk.relink (h : ZoneOk zoneSize cNext z zone chunks) (magic : ℤ) (next : Option ℕ) :
    ZoneOk zoneSize cNext z { zone with zMagic := magic, zNext := next } chunks :=
  ⟨h.index, h.size, h.base, h.fits, h.room, h.uindex, h.linked, h.nodup, h.chunk, h.nfree⟩

theorem ZoneOk.frame (h : ZoneOk zoneSize cNext z zone chunks) (hc : c ∉ chunks) (x : Option ℕ) :
    ZoneOk zoneSize (Function.update cNext c x) z zone chunks :=
  ⟨h.index, h.size, h.base, h.fits, h.room, h.uindex, h.linked.update hc x, h.nodup, h.chunk, h.nfree⟩

theorem ZoneOk.size_pos (h : ZoneOk zoneSize cNext z zone chunks) : 0 < zone.zChunksize := by
  have := (layout_spec _ h.index).1
  rw [h.size]
  omega

theorem ZoneOk.chunkAt_inj (h : ZoneOk zoneSize cNext z zone chunks) {i j : ℕ} (hij : zone.chunkAt i = zone.chunkAt j) :
    i = j := by
  rw [SlabZone.chunkAt, SlabZone.chunkAt] at hij
  exact Nat.eq_of_mul_eq_mul_right h.size_pos (by omega)

theorem ZoneOk.within (h : ZoneOk zoneSize cNext z zone chunks) {i : ℕ} (hi : i < zone.zNmax) :
    z * pageSize + sizeofSlabZone ≤ zone.chunkAt i ∧ zone.chunkAt i + zone.zChunksize ≤ z * pageSize + zoneSize := by
  have hmul : (i + 1) * zone.zChunksize ≤ zone.zNmax * zone.zChunksize := Nat.mul_le_mul_right _ hi
  rw [Nat.succ_mul] at hmul
  have hbase := h.base
  have hfits := h.fits
  rw [SlabZone.chunkAt]
  omega

theorem ZoneOk.page (h : ZoneOk zoneSize cNext z zone chunks) {cnt i : ℕ} (hcnt : cnt * pageSize = zoneSize)
    (hi : i < zone.zNmax) : z ≤ zone.chunkAt i / pageSize ∧ zone.chunkAt i / pageSize < z + cnt := by
  obtain ⟨hlow, hhigh⟩ := h.within hi
  have hpos := h.size_pos
  constructor
  · exact (Nat.le_div_iff_mul_le (by decide)).mpr (by omega)
  · refine (Nat.div_lt_iff_lt_mul (by decide)).mpr ?_
    rw [Nat.add_mul, hcnt]
    omega

theorem ZoneOk.held_page (h : ZoneOk zoneSize cNext z zone chunks) {cnt : ℕ} (hcnt : cnt * pageSize = zoneSize)
    (hc : Held zone chunks c) : z ≤ c / pageSize ∧ c / pageSize < z + cnt := by
  obtain ⟨-, i, hi, rfl⟩ := hc
  exact h.page hcnt (Nat.lt_of_le_of_lt hi h.uindex)

theorem ZoneOk.chunk_page (h : ZoneOk zoneSize cNext z zone chunks) {cnt : ℕ} (hcnt : cnt * pageSize = zoneSize)
    (hc : c ∈ chunks) : z ≤ c / pageSize ∧ c / pageSize < z + cnt := by
  obtain ⟨i, hi, rfl⟩ := h.chunk c hc
  exact h.page hcnt (Nat.lt_of_le_of_lt hi h.uindex)

/-- The chunks up to `z_uindex`. -/
def SlabZone.used (zone : SlabZone) : List ℕ := (List.range (zone.zUindex + 1)).map zone.chunkAt

theorem mem_used : c ∈ zone.used ↔ ∃ i ≤ zone.zUindex, c = zone.chunkAt i := by
  simp only [SlabZone.used, List.mem_map, List.mem_range, Nat.lt_succ_iff]
  constructor
  · rintro ⟨i, hi, rfl⟩
    exact ⟨i, hi, rfl⟩
  · rintro ⟨i, hi, rfl⟩
    exact ⟨i, hi, rfl⟩

theorem ZoneOk.not_held (h : ZoneOk zoneSize cNext z zone chunks) (hfull : zone.zNfree = zone.zNmax) :
    ¬Held zone chunks c := by
  rintro ⟨hc, hi⟩
  have hsub : chunks ⊆ zone.used := fun x hx => mem_used.mpr (h.chunk x hx)
  have hlen : zone.used.length ≤ chunks.length := by
    have hnfree := h.nfree
    have huindex := h.uindex
    rw [SlabZone.used, List.length_map, List.length_range]
    omega
  have hperm := (List.subperm_of_subset h.nodup hsub).perm_of_length_le hlen
  exact hc (hperm.mem_iff.mpr (mem_used.mpr hi))

/-! ### Chunks are taken and given back -/

theorem ZoneOk.fresh (h : ZoneOk zoneSize cNext z zone chunks) (hmore : zone.zUindex + 1 ≠ zone.zNmax) :
    ZoneOk zoneSize cNext z { zone with zNfree := zone.zNfree - 1, zUindex := zone.zUindex + 1 } chunks ∧
      (∀ x, Held { zone with zNfree := zone.zNfree - 1, zUindex := zone.zUindex + 1 } chunks x ↔
        x = zone.chunkAt (zone.zUindex + 1) ∨ Held zone chunks x) ∧
      ¬Held zone chunks (zone.chunkAt (zone.zUindex + 1)) := by
  have huindex := h.uindex
  have hnew : ∀ i ≤ zone.zUindex, zone.chunkAt (zone.zUindex + 1) ≠ zone.chunkAt i := fun i hi he => by
    have := h.chunkAt_inj he
    omega
  have hout : zone.chunkAt (zone.zUindex + 1) ∉ chunks := fun hmem => by
    obtain ⟨i, hi, he⟩ := h.chunk _ hmem
    exact hnew i hi he
  refine ⟨⟨h.index, h.size, h.base, h.fits, h.room, by simp only; omega, h.linked, h.nodup, fun x hx => ?_, ?_⟩,
    fun x => ?_, fun hheld => ?_⟩
  · obtain ⟨i, hi, hx⟩ := h.chunk x hx
    exact ⟨i, Nat.le_succ_of_le hi, hx⟩
  · have hnfree := h.nfree
    simp only
    omega
  · constructor
    · rintro ⟨hx, i, hi, rfl⟩
      rcases Nat.lt_or_eq_of_le hi with hlt | rfl
      · exact Or.inr ⟨hx, i, Nat.le_of_lt_succ hlt, rfl⟩
      · exact Or.inl rfl
    · rintro (rfl | ⟨hx, i, hi, rfl⟩)
      · exact ⟨hout, _, le_rfl, rfl⟩
      · exact ⟨hx, i, Nat.le_succ_of_le hi, rfl⟩
  · obtain ⟨-, i, hi, he⟩ := hheld
    exact hnew i hi he

theorem ZoneOk.pop (h : ZoneOk zoneSize cNext z zone (c :: chunks)) :
    ZoneOk zoneSize cNext z { zone with zNfree := zone.zNfree - 1, zFreechunk := cNext c } chunks ∧
      (∀ x, Held { zone with zNfree := zone.zNfree - 1, zFreechunk := cNext c } chunks x ↔
        x = c ∨ Held zone (c :: chunks) x) ∧
      ¬Held zone (c :: chunks) c := by
  obtain ⟨hc, hnodup⟩ := List.nodup_cons.mp h.nodup
  refine ⟨⟨h.index, h.size, h.base, h.fits, h.room, h.uindex, h.linked.2, hnodup,
    fun x hx => h.chunk x (List.mem_cons_of_mem c hx), ?_⟩, fun x => ?_, fun hheld => hheld.1 List.mem_cons_self⟩
  · have hnfree := h.nfree
    rw [List.length_cons] at hnfree
    simp only
    omega
  · constructor
    · rintro ⟨hx, hi⟩
      by_cases hxc : x = c
      · exact Or.inl hxc
      · exact Or.inr ⟨fun hmem => (List.mem_cons.mp hmem).elim hxc hx, hi⟩
    · rintro (rfl | ⟨hx, hi⟩)
      · exact ⟨hc, h.chunk x List.mem_cons_self⟩
      · exact ⟨fun hmem => hx (List.mem_cons_of_mem c hmem), hi⟩

theorem ZoneOk.push (h : ZoneOk zoneSize cNext z zone chunks) (hc : Held zone chunks c) :
    ZoneOk zoneSize (Function.update cNext c zone.zFreechunk) z
        { zone with zFreechunk := some c, zNfree := zone.zNfree + 1 } (c :: chunks) ∧
      ∀ x, Held { zone with zFreechunk := some c, zNfree := zone.zNfree + 1 } (c :: chunks) x ↔
        x ≠ c ∧ Held zone chunks x := by
  refine ⟨⟨h.index, h.size, h.base, h.fits, h.room, h.uindex, h.linked.push hc.1, List.nodup_cons.mpr ⟨hc.1, h.nodup⟩,
    List.forall_mem_cons.mpr ⟨hc.2, h.chunk⟩, ?_⟩, fun x => ?_⟩
  · have hnfree := h.nfree
    rw [List.length_cons]
    simp only
    omega
  · constructor
    · rintro ⟨hx, hi⟩
      rw [List.mem_cons, not_or] at hx
      exact ⟨hx.1, hx.2, hi⟩
    · rintro ⟨hxc, hx, hi⟩
      exact ⟨fun hmem => (List.mem_cons.mp hmem).elim hxc hx, hi⟩

end RtThread.Memory.Slab
