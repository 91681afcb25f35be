import RtThread.Lib.Overlay

/-!
# Setting, copying and moving memory (`kservice.c:115-312`)

The words are those of a 32-bit processor with the low byte first. Addresses and lengths are unsigned and wrap.
The code for `RT_USING_TINY_SIZE` is not modelled.
-/

namespace RtThread.Kservice.Memory

open RtThread.Lib.Overlay

abbrev Addr := BitVec 32
abbrev Mem := Addr → BitVec 8

def loadWord (m : Mem) (a : Addr) : BitVec 32 := m (a + 3#32) ++ m (a + 2#32) ++ m (a + 1#32) ++ m a

def storeWord (m : Mem) (a : Addr) (v : BitVec 32) : Mem :=
  Function.update (Function.update (Function.update (Function.update m a (v.extractLsb' 0 8))
    (a + 1#32) (v.extractLsb' 8 8)) (a + 2#32) (v.extractLsb' 16 8)) (a + 3#32) (v.extractLsb' 24 8)

/-- `*aligned_addr++ = buffer` -/
def setWord (buffer : BitVec 32) (s : Mem × Addr) : Mem × Addr := (storeWord s.1 s.2 buffer, s.2 + 4#32)

/-- `*m++ = (char)d` -/
def setByte (d : BitVec 32) (s : Mem × Addr) : Mem × Addr := (Function.update s.1 s.2 (d.setWidth 8), s.2 + 1#32)

def setBlock (buffer : BitVec 32) (s : Mem × Addr) : Mem × Addr :=
  setWord buffer (setWord buffer (setWord buffer (setWord buffer s)))

/-- `rt_memset` (`kservice.c:126-197`). -/
def rtMemset (m : Mem) (s : Addr) (c count : BitVec 32) : Mem × Addr :=
  let d := c &&& 0xff
  let tail : (Mem × Addr) × BitVec 32 :=
    if ¬count < 4 ∧ s &&& 3 = 0 then
      let buffer := d <<< 8 ||| d
      let buffer := buffer ||| buffer <<< 16
      let blocks := countdown 16#32 (setBlock buffer) (m, s) count
      countdown 4#32 (setWord buffer) blocks.1 blocks.2
    else ((m, s), count)
  ((countdown 1#32 (setByte d) tail.1 tail.2).1.1, s)

structure Copy where
  mem : Mem
  dst : Addr
  src : Addr

/-- `*aligned_dst++ = *aligned_src++` -/
def copyWord (s : Copy) : Copy := ⟨storeWord s.mem s.dst (loadWord s.mem s.src), s.dst + 4#32, s.src + 4#32⟩

/-- `*dst_ptr++ = *src_ptr++` -/
def copyByte (s : Copy) : Copy := ⟨Function.update s.mem s.dst (s.mem s.src), s.dst + 1#32, s.src + 1#32⟩

def copyBlock (s : Copy) : Copy := copyWord (copyWord (copyWord (copyWord s)))

/-- `rt_memcpy` (`kservice.c:210-280`). The length is an `int`, but it is compared with a `size_t`. -/
def rtMemcpy (m : Mem) (dst src : Addr) (count : BitVec 32) : Mem × Addr :=
  let tail : Copy × BitVec 32 :=
    if ¬count < 16 ∧ src &&& 3 ||| dst &&& 3 = 0 then
      let blocks := countdown 16#32 copyBlock ⟨m, dst, src⟩ count
      countdown 4#32 copyWord blocks.1 blocks.2
    else (⟨m, dst, src⟩, count)
  ((countdown 1#32 copyByte tail.1 tail.2).1.mem, dst)

/-- `*(--tmp) = *(--s)` -/
def copyByteDown (s : Copy) : Copy :=
  ⟨Function.update s.mem (s.dst - 1#32) (s.mem (s.src - 1#32)), s.dst - 1#32, s.src - 1#32⟩

/-- `rt_memmove` (`kservice.c:293-312`). -/
def rtMemmove (m : Mem) (dest src : Addr) (n : BitVec 32) : Mem × Addr :=
  if src < dest ∧ dest < src + n then
    ((countdown 1#32 copyByteDown ⟨m, dest + n, src + n⟩ n).1.mem, dest)
  else ((countdown 1#32 copyByte ⟨m, dest, src⟩ n).1.mem, dest)

/-- `while (count--) *m++ = d;` -/
def byteSet (m : Mem) (s : Addr) (d : BitVec 8) : ℕ → Mem
  | 0 => m
  | n + 1 => byteSet (Function.update m s d) (s + 1#32) d n

/-- `while (count--) *dst++ = *src++;` -/
def byteCopy (m : Mem) (dst src : Addr) : ℕ → Mem
  | 0 => m
  | n + 1 => byteCopy (Function.update m dst (m src)) (dst + 1#32) (src + 1#32) n

/-- What was at `src`, byte by byte. -/
def snapshot (m : Mem) (src : Addr) (i : ℕ) : BitVec 8 := m (src + BitVec.ofNat 32 i)

/-- The memory outside of the `n` bytes from `dst` on is the same. -/
def SameOutside (dst : Addr) (n : BitVec 32) (m m' : Mem) : Prop :=
  ∀ a, (∀ i < n.toNat, dst + BitVec.ofNat 32 i ≠ a) → m' a = m a

def Disjoint (dst src : Addr) (n : BitVec 32) : Prop :=
  ∀ i < n.toNat, ∀ j < n.toNat, dst + BitVec.ofNat 32 i ≠ src + BitVec.ofNat 32 j

variable {m : Mem} {a dst src : Addr} {n k : ℕ}

theorem storeWord_eq (m : Mem) (a : Addr) (v : BitVec 32) :
    storeWord m a v = overlay m a 4 fun i => v.extractLsb' (8 * i) 8 := by
  have h : ∀ n < 4, Function.update (overlay m a n fun i => v.extractLsb' (8 * i) 8) (a + BitVec.ofNat 32 n)
      (v.extractLsb' (8 * n) 8) = overlay m a (n + 1) fun i => v.extractLsb' (8 * i) 8 :=
    fun n hn => overlay_succ (by omega)
  rw [← h 3 (by decide), ← h 2 (by decide), ← h 1 (by decide), ← h 0 (by decide), overlay_zero, BitVec.add_zero]
  rfl

theorem extract_loadWord (m : Mem) (a : Addr) {i : ℕ} (hi : i < 4) :
    (loadWord m a).extractLsb' (8 * i) 8 = snapshot m a i := by
  rw [loadWord, snapshot]
  interval_cases i
  · rw [BitVec.extractLsb'_append_eq_right, BitVec.add_zero]
  · rw [BitVec.extractLsb'_append_eq_of_le le_rfl, BitVec.extractLsb'_append_eq_right]
  · rw [BitVec.extractLsb'_append_eq_of_le (by decide), BitVec.extractLsb'_append_eq_of_le (by decide),
      BitVec.extractLsb'_append_eq_right]
  · rw [BitVec.extractLsb'_append_eq_of_le (by decide), BitVec.extractLsb'_append_eq_of_le (by decide),
      BitVec.extractLsb'_append_eq_left]

theorem add_ofNat (a : Addr) (i j : ℕ) : a + BitVec.ofNat 32 i + BitVec.ofNat 32 j = a + BitVec.ofNat 32 (i + j) := by
  rw [BitVec.add_assoc, BitVec.ofNat_add]

theorem extract_buffer (c : BitVec 32) {i : ℕ} (hi : i < 4) :
    (((c &&& 0xff) <<< 8 ||| c &&& 0xff) ||| ((c &&& 0xff) <<< 8 ||| c &&& 0xff) <<< 16).extractLsb' (8 * i) 8 =
      (c &&& 0xff).setWidth 8 := by
  obtain ⟨d, hd⟩ : ∃ d, d = c &&& 0xff := ⟨_, rfl⟩
  have hhigh : ∀ j, 8 ≤ j → d.getLsbD j = false := by
    intro j hj
    have hlt : d.toNat < 2 ^ 8 := by
      rw [hd, BitVec.toNat_and]
      exact Nat.and_lt_two_pow _ (by decide)
    exact Nat.testBit_eq_false_of_lt (hlt.trans_le (Nat.pow_le_pow_right (by decide) hj))
  rw [← hd]
  apply BitVec.eq_of_getLsbD_eq
  intro j hj
  interval_cases i <;> grind

section Set

variable {c d : BitVec 32} {s : Addr}

/-- The memory and the pointer after `k` bytes of `d` from `s` on. -/
def Filled (m : Mem) (s : Addr) (d : BitVec 8) (k : ℕ) (t : Mem × Addr) : Prop :=
  t = (overlay m s k fun _ => d, s + BitVec.ofNat 32 k)

theorem Filled.setWord {d : BitVec 8} {buffer : BitVec 32} {t : Mem × Addr}
    (hbuf : ∀ i < 4, buffer.extractLsb' (8 * i) 8 = d) (hk : k + 4 ≤ n) (hn : n < 2 ^ 32) (h : Filled m s d k t) :
    Filled m s d (k + 4) (setWord buffer t) := by
  rw [Filled, Memory.setWord, h, storeWord_eq, overlay_congr hbuf, overlay_add (by omega), add_ofNat]

theorem Filled.setBlock {d : BitVec 8} {buffer : BitVec 32} {t : Mem × Addr}
    (hbuf : ∀ i < 4, buffer.extractLsb' (8 * i) 8 = d) (hk : k + 16 ≤ n) (hn : n < 2 ^ 32) (h : Filled m s d k t) :
    Filled m s d (k + 16) (setBlock buffer t) := by
  have h₁ := h.setWord hbuf (by omega) hn
  have h₂ := h₁.setWord hbuf (by omega) hn
  have h₃ := h₂.setWord hbuf (by omega) hn
  exact h₃.setWord hbuf hk hn

theorem Filled.setByte {t : Mem × Addr} (hk : k + 1 ≤ n) (hn : n < 2 ^ 32) (h : Filled m s (d.setWidth 8) k t) :
    Filled m s (d.setWidth 8) (k + 1) (setByte d t) := by
  rw [Filled, Memory.setByte, h, overlay_succ (by omega), add_ofNat]

theorem Filled.bytes {count len : BitVec 32} {t : Mem × Addr} (hk : k + len.toNat = count.toNat)
    (ht : Filled m s (d.setWidth 8) k t) :
    (countdown 1#32 (Memory.setByte d) t len).1.1 = overlay m s count.toNat fun _ => d.setWidth 8 := by
  have hstep : ∀ k t, k + (1#32).toNat ≤ count.toNat → Filled m s (d.setWidth 8) k t →
      Filled m s (d.setWidth 8) (k + (1#32).toNat) (Memory.setByte d t) :=
    fun _ _ hle h => h.setByte hle count.isLt
  obtain ⟨k', hk', ht', hlt⟩ := countdown_inv (by decide) hstep hk ht
  have hlen : (countdown 1#32 (Memory.setByte d) t len).2.toNat < 1 := hlt
  rw [ht', show k' = count.toNat by omega]

theorem rtMemset_eq (m : Mem) (s : Addr) (c count : BitVec 32) :
    (rtMemset m s c count).1 = overlay m s count.toNat fun _ => (c &&& 0xff).setWidth 8 := by
  obtain ⟨d, hd⟩ : ∃ d, d = c &&& 0xff := ⟨_, rfl⟩
  obtain ⟨buffer, hbuffer⟩ : ∃ buffer, buffer = (d <<< 8 ||| d) ||| (d <<< 8 ||| d) <<< 16 := ⟨_, rfl⟩
  have hbytes : ∀ i < 4, buffer.extractLsb' (8 * i) 8 = d.setWidth 8 := by
    intro i hi
    rw [hbuffer, hd]
    exact extract_buffer c hi
  have hblocks : ∀ k t, k + (16#32).toNat ≤ count.toNat → Filled m s (d.setWidth 8) k t →
      Filled m s (d.setWidth 8) (k + (16#32).toNat) (setBlock buffer t) :=
    fun _ _ hle h => h.setBlock hbytes hle count.isLt
  have hwords : ∀ k t, k + (4#32).toNat ≤ count.toNat → Filled m s (d.setWidth 8) k t →
      Filled m s (d.setWidth 8) (k + (4#32).toNat) (setWord buffer t) :=
    fun _ _ hle h => h.setWord hbytes hle count.isLt
  have hstart : Filled m s (d.setWidth 8) 0 (m, s) := by
    rw [Filled, overlay_zero, BitVec.add_zero]
  have hzero := Nat.zero_add count.toNat
  rw [rtMemset, ← hd]
  split
  · obtain ⟨k₁, hk₁, h₁, -⟩ := countdown_inv (by decide) hblocks hzero hstart
    obtain ⟨k₂, hk₂, h₂, -⟩ := countdown_inv (by decide) hwords hk₁ h₁
    rw [hbuffer] at hk₂ h₂
    exact h₂.bytes hk₂
  · exact hstart.bytes hzero

theorem byteSet_eq (m : Mem) (s : Addr) (d : BitVec 8) {n : ℕ} (hn : n ≤ 2 ^ 32) :
    byteSet m s d n = overlay m s n fun _ => d := by
  induction n generalizing m s with
  | zero => rw [overlay_zero]; rfl
  | succ n ih =>
    have hfirst : Function.update m s d = overlay m s 1 fun _ => d := by
      rw [← overlay_succ (by decide), overlay_zero, BitVec.add_zero]
    rw [byteSet, ih _ _ (by omega), hfirst, overlay_add (by omega), Nat.add_comm]

end Set

section Copy

/-- The loop copies upwards, and never reads a byte that it has written. -/
def Readable (dst src : Addr) (n : ℕ) : Prop :=
  ∀ k < n, ∀ i < k, dst + BitVec.ofNat 32 i ≠ src + BitVec.ofNat 32 k

/-- The memory and the pointers after `k` bytes have been copied upwards. -/
def Copied (m : Mem) (dst src : Addr) (k : ℕ) (t : Copy) : Prop :=
  t = ⟨overlay m dst k (snapshot m src), dst + BitVec.ofNat 32 k, src + BitVec.ofNat 32 k⟩

variable {t : Copy}

theorem Copied.copyByte (hr : Readable dst src n) (hk : k + 1 ≤ n) (hn : n < 2 ^ 32) (h : Copied m dst src k t) :
    Copied m dst src (k + 1) (copyByte t) := by
  have hread : overlay m dst k (snapshot m src) (src + BitVec.ofNat 32 k) = snapshot m src k :=
    overlay_apply_of_ne (hr k hk)
  rw [Copied, Memory.copyByte, h]
  dsimp only
  rw [hread, overlay_succ (by omega), add_ofNat, add_ofNat]

theorem Disjoint.readable {count : BitVec 32} (h : Disjoint dst src count) : Readable dst src count.toNat :=
  fun k hk i hi => h i (hi.trans hk) k hk

theorem Copied.copyWord {count : BitVec 32} (hd : Disjoint dst src count) (hk : k + 4 ≤ count.toNat)
    (h : Copied m dst src k t) : Copied m dst src (k + 4) (copyWord t) := by
  have hn := count.isLt
  have hread : ∀ i < 4, (loadWord (overlay m dst k (snapshot m src)) (src + BitVec.ofNat 32 k)).extractLsb' (8 * i) 8 =
      snapshot m src (k + i) := by
    intro i hi
    rw [extract_loadWord _ _ hi, snapshot, add_ofNat]
    exact overlay_apply_of_ne fun j hj => hd j (by omega) (k + i) (by omega)
  rw [Copied, Memory.copyWord, h, storeWord_eq, overlay_congr hread, overlay_add (by omega), add_ofNat, add_ofNat]

theorem Copied.copyBlock {count : BitVec 32} (hd : Disjoint dst src count) (hk : k + 16 ≤ count.toNat)
    (h : Copied m dst src k t) : Copied m dst src (k + 16) (copyBlock t) := by
  have h₁ := h.copyWord hd (by omega)
  have h₂ := h₁.copyWord hd (by omega)
  have h₃ := h₂.copyWord hd (by omega)
  exact h₃.copyWord hd hk

theorem Copied.bytes {count len : BitVec 32} (hr : Readable dst src count.toNat) (hk : k + len.toNat = count.toNat)
    (ht : Copied m dst src k t) :
    (countdown 1#32 Memory.copyByte t len).1.mem = overlay m dst count.toNat (snapshot m src) := by
  have hstep : ∀ k t, k + (1#32).toNat ≤ count.toNat → Copied m dst src k t →
      Copied m dst src (k + (1#32).toNat) (Memory.copyByte t) :=
    fun _ _ hle h => h.copyByte hr hle count.isLt
  obtain ⟨k', hk', ht', hlt⟩ := countdown_inv (by decide) hstep hk ht
  have hlen : (countdown 1#32 Memory.copyByte t len).2.toNat < 1 := hlt
  rw [ht', show k' = count.toNat by omega]

theorem copied_start (m : Mem) (dst src : Addr) : Copied m dst src 0 ⟨m, dst, src⟩ := by
  rw [Copied, overlay_zero, BitVec.add_zero, BitVec.add_zero]

theorem rtMemcpy_eq {count : BitVec 32} (m : Mem) (hd : Disjoint dst src count) :
    (rtMemcpy m dst src count).1 = overlay m dst count.toNat (snapshot m src) := by
  have hblocks : ∀ k t, k + (16#32).toNat ≤ count.toNat → Copied m dst src k t →
      Copied m dst src (k + (16#32).toNat) (copyBlock t) := fun _ _ hle h => h.copyBlock hd hle
  have hwords : ∀ k t, k + (4#32).toNat ≤ count.toNat → Copied m dst src k t →
      Copied m dst src (k + (4#32).toNat) (copyWord t) := fun _ _ hle h => h.copyWord hd hle
  have hzero := Nat.zero_add count.toNat
  rw [rtMemcpy]
  split
  · obtain ⟨k₁, hk₁, h₁, -⟩ := countdown_inv (by decide) hblocks hzero (copied_start m dst src)
    obtain ⟨k₂, hk₂, h₂, -⟩ := countdown_inv (by decide) hwords hk₁ h₁
    exact h₂.bytes hd.readable hk₂
  · exact (copied_start m dst src).bytes hd.readable hzero

theorem byteCopy_eq (hr : Readable dst src n) (hn : n < 2 ^ 32) {j : ℕ} (hk : k + j = n) :
    byteCopy (overlay m dst k (snapshot m src)) (dst + BitVec.ofNat 32 k) (src + BitVec.ofNat 32 k) j =
      overlay m dst n (snapshot m src) := by
  induction j generalizing k with
  | zero => rw [← hk]; rfl
  | succ j ih =>
    have hread : overlay m dst k (snapshot m src) (src + BitVec.ofNat 32 k) = snapshot m src k :=
      overlay_apply_of_ne (hr k (by omega))
    rw [byteCopy, hread, overlay_succ (by omega), add_ofNat, add_ofNat]
    exact ih (by omega)

/-- The memory and the pointers after `k` of `n` bytes have been copied downwards. -/
def CopiedDown (m : Mem) (dst src : Addr) (n k : ℕ) (t : Copy) : Prop :=
  t = ⟨overlay m (dst + BitVec.ofNat 32 (n - k)) k fun i => snapshot m src (n - k + i),
    dst + BitVec.ofNat 32 (n - k), src + BitVec.ofNat 32 (n - k)⟩

/-- The loop copies downwards, and never reads a byte that it has written. -/
def ReadableDown (dst src : Addr) (n : ℕ) : Prop :=
  ∀ k < n, ∀ i < k, dst + BitVec.ofNat 32 k ≠ src + BitVec.ofNat 32 i

theorem pred_add_ofNat (a : Addr) (hk : k + 1 ≤ n) :
    a + BitVec.ofNat 32 (n - k) - 1#32 = a + BitVec.ofNat 32 (n - (k + 1)) := by
  rw [show n - k = n - (k + 1) + 1 by omega, ← add_ofNat, BitVec.add_sub_cancel]

theorem CopiedDown.copyByteDown (hr : ReadableDown dst src n) (hk : k + 1 ≤ n) (hn : n < 2 ^ 32)
    (h : CopiedDown m dst src n k t) : CopiedDown m dst src n (k + 1) (copyByteDown t) := by
  have hread : overlay m (dst + BitVec.ofNat 32 (n - k)) k (fun i => snapshot m src (n - k + i))
      (src + BitVec.ofNat 32 (n - (k + 1))) = snapshot m src (n - (k + 1)) := by
    apply overlay_apply_of_ne
    intro i hi
    rw [add_ofNat]
    exact hr (n - k + i) (by omega) (n - (k + 1)) (by omega)
  have hshift : (fun i => snapshot m src (n - k + i)) = fun i => snapshot m src (n - (k + 1) + (i + 1)) := by
    funext i
    rw [show n - k + i = n - (k + 1) + (i + 1) by omega]
  rw [CopiedDown, Memory.copyByteDown, h]
  simp only [pred_add_ofNat _ hk, hread]
  rw [← overlay_cons (by omega), ← hshift, add_ofNat, show n - (k + 1) + 1 = n - k by omega]
  rfl

theorem CopiedDown.bytes {count : BitVec 32} (hr : ReadableDown dst src count.toNat) :
    (countdown 1#32 Memory.copyByteDown ⟨m, dst + count, src + count⟩ count).1.mem =
      overlay m dst count.toNat (snapshot m src) := by
  have hstep : ∀ k t, k + (1#32).toNat ≤ count.toNat → CopiedDown m dst src count.toNat k t →
      CopiedDown m dst src count.toNat (k + (1#32).toNat) (Memory.copyByteDown t) :=
    fun _ _ hle h => h.copyByteDown hr hle count.isLt
  have hstart : CopiedDown m dst src count.toNat 0 ⟨m, dst + count, src + count⟩ := by
    rw [CopiedDown, overlay_zero, Nat.sub_zero, BitVec.ofNat_toNat, BitVec.setWidth_eq]
  obtain ⟨k, hk, ht, hlt⟩ := countdown_inv (by decide) hstep (Nat.zero_add count.toNat) hstart
  have hlen : (countdown 1#32 Memory.copyByteDown ⟨m, dst + count, src + count⟩ count).2.toNat < 1 := hlt
  obtain rfl : k = count.toNat := by omega
  rw [ht, Nat.sub_self, BitVec.add_zero]
  simp only [Nat.zero_add]

theorem toNat_add_ofNat {i : ℕ} (h : a.toNat + i < 2 ^ 32) : (a + BitVec.ofNat 32 i).toNat = a.toNat + i := by
  rw [BitVec.toNat_add, BitVec.toNat_ofNat, Nat.add_mod_mod, Nat.mod_eq_of_lt h]

theorem rtMemmove_eq {count : BitVec 32} (m : Mem) (hdst : dst.toNat + count.toNat ≤ 2 ^ 32)
    (hsrc : src.toNat + count.toNat ≤ 2 ^ 32) :
    (rtMemmove m dst src count).1 = overlay m dst count.toNat (snapshot m src) := by
  rw [rtMemmove]
  split
  · rename_i hover
    apply CopiedDown.bytes
    intro k hk i hi heq
    have hlt : src.toNat < dst.toNat := hover.1
    have hnat := congrArg BitVec.toNat heq
    rw [toNat_add_ofNat (by omega), toNat_add_ofNat (by omega)] at hnat
    omega
  · rename_i hover
    apply (copied_start m dst src).bytes _ (Nat.zero_add count.toNat)
    intro k hk i hi heq
    have hnat := congrArg BitVec.toNat heq
    rw [toNat_add_ofNat (by omega), toNat_add_ofNat (by omega)] at hnat
    have hend : (src + count).toNat = src.toNat + count.toNat := by
      rw [BitVec.toNat_add, Nat.mod_eq_of_lt (by omega)]
    apply hover
    constructor
    · show src.toNat < dst.toNat
      omega
    · show dst.toNat < (src + count).toNat
      omega

end Copy

theorem sameOutside_overlay (m : Mem) (dst : Addr) (count : BitVec 32) (f : ℕ → BitVec 8) :
    SameOutside dst count m (overlay m dst count.toNat f) := fun _ ha => overlay_apply_of_ne ha

/-- The functions write what the plain byte loops write, or a copy of what was in the source, and no byte
elsewhere. -/
theorem primitives_eq_byte_loops :
    (∀ m s c count, (rtMemset m s c count).1 = byteSet m s (c.setWidth 8) count.toNat ∧
      SameOutside s count m (rtMemset m s c count).1) ∧
    (∀ m dst src count, Disjoint dst src count →
      (rtMemcpy m dst src count).1 = byteCopy m dst src count.toNat ∧
        SameOutside dst count m (rtMemcpy m dst src count).1) ∧
    (∀ m dest src n, dest.toNat + n.toNat ≤ 2 ^ 32 → src.toNat + n.toNat ≤ 2 ^ 32 →
      (∀ i < n.toNat, (rtMemmove m dest src n).1 (dest + BitVec.ofNat 32 i) = snapshot m src i) ∧
        SameOutside dest n m (rtMemmove m dest src n).1) := by
  refine ⟨fun m s c count => ?_, fun m dst src count hd => ?_, fun m dest src n hdest hsrc => ?_⟩
  · have hlow : (c &&& 0xff).setWidth 8 = c.setWidth 8 := by
      apply BitVec.eq_of_toNat_eq
      rw [BitVec.toNat_setWidth, BitVec.toNat_setWidth, BitVec.toNat_and]
      exact (congrArg (· % 2 ^ 8) (Nat.and_two_pow_sub_one_eq_mod c.toNat 8)).trans (Nat.mod_mod _ _)
    rw [rtMemset_eq, hlow]
    exact ⟨(byteSet_eq m s _ count.isLt.le).symm, sameOutside_overlay _ _ _ _⟩
  · have hbytes := @byteCopy_eq m dst src count.toNat 0 hd.readable count.isLt _ (Nat.zero_add count.toNat)
    rw [overlay_zero, BitVec.add_zero, BitVec.add_zero] at hbytes
    rw [rtMemcpy_eq m hd]
    exact ⟨hbytes.symm, sameOutside_overlay _ _ _ _⟩
  · rw [rtMemmove_eq m hdest hsrc]
    exact ⟨fun i hi => overlay_apply_add hi n.isLt.le, sameOutside_overlay _ _ _ _⟩

theorem primitives_eq_byte_loops_sample :
    (rtMemcpy (fun a => a.setWidth 8) 0x20000102#32 0x20000006#32 21#32).1 =
      byteCopy (fun a => a.setWidth 8) 0x20000102#32 0x20000006#32 21 ∧
      (rtMemmove (fun a => a.setWidth 8) 0x20000004#32 0x20000001#32 9#32).1 0x2000000c#32 = 9#8 := by
  have hdisjoint : Disjoint 0x20000102#32 0x20000006#32 21#32 := by
    intro i hi j hj
    have hi : i < 21 := hi
    have hj : j < 21 := hj
    interval_cases i <;> interval_cases j <;> decide
  have hmove := (primitives_eq_byte_loops.2.2 (fun a => a.setWidth 8) 0x20000004#32 0x20000001#32 9#32 (by decide)
    (by decide)).1 8 (by decide)
  exact ⟨(primitives_eq_byte_loops.2.1 _ _ _ _ hdisjoint).1, hmove⟩

end RtThread.Kservice.Memory
