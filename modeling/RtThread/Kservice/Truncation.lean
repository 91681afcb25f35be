import RtThread.Kservice.Verbatim

/-!
# What `rt_vsnprintf` leaves in memory (`kservice.c:748-1010`)

The cursor `str` and the end of the buffer are addresses of 32 bits here. A buffer that passes the last address ends
there, without it. Neither the format nor the strings of the arguments lie in the buffer.
-/

namespace RtThread.Kservice.Vsnprintf

open RtThread.Lib.Ring

/-! ### The function with its addresses -/

structure Cursor where
  mem : BitVec 32 → Char
  str : BitVec 32

/-- `if (str < end) *str = c; ++ str;` -/
def Cursor.put (stop : BitVec 32) (o : Cursor) (c : Char) : Cursor :=
  { mem := if o.str < stop then Function.update o.mem o.str c else o.mem, str := o.str + 1 }

/-- `end`, and the `size` that goes with it (`kservice.c:771-779`). -/
def bufferEnd (buf size : BitVec 32) : BitVec 32 × BitVec 32 :=
  if buf + size < buf then (-1, -1 - buf) else (buf + size, size)

/-- The memory behind the call, and the result. -/
def rtVsnprintfAt (mem : BitVec 32 → Char) (buf size : BitVec 32) (fmt : List Char) (args : VaList) :
    (BitVec 32 → Char) × ℤ :=
  let (stop, size) := bufferEnd buf size
  let o := formatLoop (Cursor.put stop) fmt.length ⟨mem, buf⟩ fmt args
  (if 0 < size then Function.update o.mem (if o.str < stop then o.str else stop - 1) '\x00' else o.mem,
    (o.str - buf).toInt)

/-- As much of the text as there is room for is in the buffer, with a zero behind it, and all of it is counted. -/
structure Truncates (mem : BitVec 32 → Char) (buf size : BitVec 32) (text : List Char)
    (r : (BitVec 32 → Char) × ℤ) : Prop where
  outside : ∀ a, a.toNat < buf.toNat ∨ buf.toNat + size.toNat ≤ a.toNat → r.1 a = mem a
  stored : ∀ i, i < min (size.toNat - 1) text.length → text[i]? = some (r.1 (buf + BitVec.ofNat 32 i))
  zero : r.1 (buf + BitVec.ofNat 32 (min (size.toNat - 1) text.length)) = '\x00'
  result : r.2 = text.length

/-! ### The characters of a text -/

variable {mem : BitVec 32 → Char} {buf size stop : BitVec 32} {l : List Char}

theorem toNat_add_ofNat {n : ℕ} (h : buf.toNat + n < 2 ^ 32) : (buf + BitVec.ofNat 32 n).toNat = buf.toNat + n := by
  rw [BitVec.toNat_add, BitVec.toNat_ofNat, Nat.mod_eq_of_lt (show n < 2 ^ 32 by omega), Nat.mod_eq_of_lt h]

theorem foldl_put_str (l : List Char) :
    (l.foldl (Cursor.put stop) ⟨mem, buf⟩).str = buf + BitVec.ofNat 32 l.length := by
  induction l using List.reverseRecOn with
  | nil => exact (BitVec.add_zero buf).symm
  | append_singleton l c ih =>
    rw [List.foldl_append, List.foldl_cons, List.foldl_nil, Cursor.put, ih, List.length_append, List.length_singleton,
      BitVec.ofNat_add, BitVec.add_assoc]
    rfl

theorem getD_concat (l : List Char) (c : Char) (k : ℕ) (d : Char) :
    (l ++ [c]).getD k d = if k = l.length then c else l.getD k d := by
  rw [List.getD_eq_getElem?_getD, List.getD_eq_getElem?_getD, List.getElem?_append]
  split
  · rename_i hlt
    rw [if_neg hlt.ne]
  · rename_i hge
    split
    · rename_i he
      rw [he, Nat.sub_self]
      rfl
    · rename_i hne
      rw [List.getElem?_eq_none (show [c].length ≤ k - l.length by simp only [List.length_singleton]; omega),
        List.getElem?_eq_none (show l.length ≤ k by omega)]

theorem foldl_put_mem (hwrap : buf.toNat + l.length < 2 ^ 32) (a : BitVec 32) :
    (l.foldl (Cursor.put stop) ⟨mem, buf⟩).mem a =
      if buf.toNat ≤ a.toNat ∧ a.toNat < stop.toNat then l.getD (a.toNat - buf.toNat) (mem a) else mem a := by
  induction l using List.reverseRecOn with
  | nil => exact (ite_self (mem a)).symm
  | append_singleton l c ih =>
    rw [List.length_append, List.length_singleton] at hwrap
    have hprev := ih (by omega)
    have hstr := toNat_add_ofNat (show buf.toNat + l.length < 2 ^ 32 by omega)
    simp only [List.foldl_append, List.foldl_cons, List.foldl_nil, Cursor.put, foldl_put_str, getD_concat]
    by_cases hlt : buf + BitVec.ofNat 32 l.length < stop
    · rw [if_pos hlt]
      rw [BitVec.lt_def, hstr] at hlt
      by_cases ha : a = buf + BitVec.ofNat 32 l.length
      · rw [ha, Function.update_self, hstr, if_pos ⟨Nat.le_add_right _ _, hlt⟩, Nat.add_sub_cancel_left, if_pos rfl]
      · have hne : a.toNat ≠ buf.toNat + l.length := fun he => ha (BitVec.eq_of_toNat_eq (he.trans hstr.symm))
        rw [Function.update_of_ne ha, hprev]
        split
        · rw [if_neg (by omega)]
        · rfl
    · rw [if_neg hlt, hprev]
      rw [BitVec.lt_def, hstr, not_lt] at hlt
      split
      · rw [if_neg (by omega)]
      · rfl

/-! ### The end of the buffer -/

theorem bufferEnd_of_fits (h : buf.toNat + size.toNat < 2 ^ 32) :
    bufferEnd buf size = (buf + size, size) ∧ (buf + size).toNat = buf.toNat + size.toNat := by
  have hadd : (buf + size).toNat = buf.toNat + size.toNat := by rw [BitVec.toNat_add, Nat.mod_eq_of_lt h]
  refine ⟨if_neg ?_, hadd⟩
  rw [BitVec.lt_def, hadd]
  omega

theorem bufferEnd_of_wraps (h : 2 ^ 32 ≤ buf.toNat + size.toNat) : bufferEnd buf size = (-1, -1 - buf) := by
  refine if_pos ?_
  have hbuf := buf.isLt
  have hsize := size.isLt
  rw [BitVec.lt_def, BitVec.toNat_add]
  omega

theorem zero_address (hbuf : buf.toNat < stop.toNat) {n : ℕ} (hwrap : buf.toNat + n < 2 ^ 32) :
    (if buf + BitVec.ofNat 32 n < stop then buf + BitVec.ofNat 32 n else stop - 1) =
      buf + BitVec.ofNat 32 (min (stop.toNat - buf.toNat - 1) n) := by
  have hstop := stop.isLt
  have hstr := toNat_add_ofNat hwrap
  refine BitVec.eq_of_toNat_eq ?_
  rw [toNat_add_ofNat (show buf.toNat + min (stop.toNat - buf.toNat - 1) n < 2 ^ 32 by omega)]
  split
  · rename_i hlt
    rw [BitVec.lt_def, hstr] at hlt
    omega
  · rename_i hge
    rw [BitVec.lt_def, hstr] at hge
    rw [BitVec.toNat_sub_of_le (by rw [BitVec.le_def]; exact Nat.one_le_iff_ne_zero.mpr (by omega))]
    show stop.toNat - 1 = _
    omega

theorem vsnprintf_mem {fmt : List Char} {args : VaList} {size' : BitVec 32}
    (hend : bufferEnd buf size = (stop, size')) (hsize : 0 < size') (hbuf : buf.toNat < stop.toNat)
    (hwrap : buf.toNat + (formatted fmt args).length < 2 ^ 32) (a : BitVec 32) :
    (rtVsnprintfAt mem buf size fmt args).1 a =
      if a = buf + BitVec.ofNat 32 (min (stop.toNat - buf.toNat - 1) (formatted fmt args).length) then '\x00'
      else if buf.toNat ≤ a.toNat ∧ a.toNat < stop.toNat then (formatted fmt args).getD (a.toNat - buf.toNat) (mem a)
      else mem a := by
  simp only [rtVsnprintfAt, hend, if_pos hsize]
  rw [formatLoop_eq_foldl, ← formatted, foldl_put_str, zero_address hbuf hwrap, Function.update_apply,
    foldl_put_mem hwrap]

theorem vsnprintf_result (fmt : List Char) (args : VaList) (hlen : (formatted fmt args).length < 2 ^ 31) :
    (rtVsnprintfAt mem buf size fmt args).2 = (formatted fmt args).length := by
  simp only [rtVsnprintfAt]
  rw [formatLoop_eq_foldl, ← formatted, foldl_put_str, BitVec.add_comm buf, BitVec.add_sub_cancel]
  rw [BitVec.toInt_eq_toNat_of_lt, BitVec.toNat_ofNat, Nat.mod_eq_of_lt (by omega)]
  rw [BitVec.toNat_ofNat, Nat.mod_eq_of_lt (by omega)]
  omega

/-! ### The law -/

theorem truncates_of_room {fmt : List Char} {args : VaList} {size' : BitVec 32}
    (hend : bufferEnd buf size = (stop, size')) (hsize : 0 < size') (hbuf : buf.toNat < stop.toNat)
    (hstop : stop.toNat ≤ buf.toNat + size.toNat)
    (hroom : min (stop.toNat - buf.toNat - 1) (formatted fmt args).length =
      min (size.toNat - 1) (formatted fmt args).length)
    (hlen : (formatted fmt args).length < 2 ^ 31) (hwrap : buf.toNat + (formatted fmt args).length < 2 ^ 32) :
    Truncates mem buf size (formatted fmt args) (rtVsnprintfAt mem buf size fmt args) := by
  have hmem := @vsnprintf_mem mem buf size stop fmt args size' hend hsize hbuf hwrap
  rw [hroom] at hmem
  obtain ⟨k, hk⟩ : ∃ k, k = min (size.toNat - 1) (formatted fmt args).length := ⟨_, rfl⟩
  rw [← hk] at hmem hroom
  have hzero := toNat_add_ofNat (show buf.toNat + k < 2 ^ 32 by omega)
  have hlast := stop.isLt
  constructor
  · intro a ha
    rw [hmem, if_neg ?_, if_neg (by omega)]
    intro he
    rw [he, hzero] at ha
    omega
  · intro i hi
    rw [← hk] at hi
    have haddr := toNat_add_ofNat (show buf.toNat + i < 2 ^ 32 by omega)
    have hne : ¬buf + BitVec.ofNat 32 i = buf + BitVec.ofNat 32 k := by
      intro he
      rw [he, hzero] at haddr
      omega
    rw [hmem, if_neg hne, haddr, if_pos ⟨Nat.le_add_right _ _, by omega⟩, Nat.add_sub_cancel_left,
      List.getD_eq_getElem?_getD, List.getElem?_eq_getElem (show i < (formatted fmt args).length by omega)]
    rfl
  · rw [← hk, hmem, if_pos rfl]
  · exact vsnprintf_result fmt args hlen

theorem vsnprintf_last {fmt : List Char} {args : VaList} (hpass : 2 ^ 32 ≤ buf.toNat + size.toNat)
    (hwrap : buf.toNat + (formatted fmt args).length = 2 ^ 32 - 1) :
    (rtVsnprintfAt mem buf size fmt args).1 (-1) = mem (-1) := by
  have hend := bufferEnd_of_wraps hpass
  have hlast : (-1 : BitVec 32).toNat = 2 ^ 32 - 1 := rfl
  by_cases hsize : (0 : BitVec 32) < -1 - buf
  · have hbuf : buf.toNat < (-1 : BitVec 32).toNat := by
      have hle : (-1 : BitVec 32) ≠ buf := by
        rintro rfl
        exact absurd hsize (by decide)
      have hne : buf.toNat ≠ (-1 : BitVec 32).toNat := fun he => hle (BitVec.eq_of_toNat_eq he.symm)
      omega
    rw [vsnprintf_mem hend hsize hbuf (by omega), if_neg ?_, if_neg (by omega)]
    intro he
    have haddr := congrArg BitVec.toNat he
    rw [toNat_add_ofNat (by omega)] at haddr
    omega
  · simp only [rtVsnprintfAt, hend, if_neg hsize]
    rw [formatLoop_eq_foldl, ← formatted, foldl_put_mem (by omega), if_neg (by omega)]

/-- `rt_vsnprintf` stores the text as far as there is room exactly if the buffer ends before the last address, or the
text does with its zero. -/
theorem vsnprintf_truncates_iff {fmt : List Char} {args : VaList} (hsize : size ≠ 0)
    (hlen : (formatted fmt args).length < 2 ^ 31) (hwrap : buf.toNat + (formatted fmt args).length < 2 ^ 32) :
    (∀ mem, Truncates mem buf size (formatted fmt args) (rtVsnprintfAt mem buf size fmt args)) ↔
      buf.toNat + size.toNat < 2 ^ 32 ∨ buf.toNat + (formatted fmt args).length + 1 < 2 ^ 32 := by
  have hpos : 0 < size.toNat := Nat.pos_of_ne_zero fun he => hsize (BitVec.eq_of_toNat_eq he)
  constructor
  · intro h
    by_contra hnot
    rw [not_or, not_lt, not_lt] at hnot
    obtain ⟨hpass, hfull⟩ := hnot
    have hzero := (h fun _ => 'x').zero
    have haddr : buf + BitVec.ofNat 32 (min (size.toNat - 1) (formatted fmt args).length) = -1 := by
      refine BitVec.eq_of_toNat_eq ?_
      rw [toNat_add_ofNat (by omega)]
      show _ = 2 ^ 32 - 1
      omega
    rw [haddr, vsnprintf_last hpass (by omega)] at hzero
    exact absurd hzero (by decide)
  · intro h mem
    by_cases hfits : buf.toNat + size.toNat < 2 ^ 32
    · obtain ⟨hend, hstop⟩ := bufferEnd_of_fits hfits
      refine truncates_of_room hend ?_ (by omega) hstop.le ?_ hlen hwrap
      · exact BitVec.lt_def.mpr hpos
      · rw [hstop, Nat.add_sub_cancel_left]
    · have hroom := h.resolve_left hfits
      have hlast : (-1 : BitVec 32).toNat = 2 ^ 32 - 1 := rfl
      have hleft : (-1 - buf).toNat = 2 ^ 32 - 1 - buf.toNat := by
        rw [BitVec.toNat_sub_of_le (BitVec.le_def.mpr (by omega)), hlast]
      refine truncates_of_room (bufferEnd_of_wraps (not_lt.mp hfits)) ?_ (by omega) (by omega) ?_ hlen hwrap
      · rw [BitVec.lt_def, hleft]
        show 0 < _
        omega
      · rw [hlast]
        omega

/-- The text `n=1234` in a buffer of four bytes. -/
theorem vsnprintf_truncates_iff_sample : Truncates (fun _ => 'x') 0x20000000 4 "n=1234".toList
    (rtVsnprintfAt (fun _ => 'x') 0x20000000 4 "n=%d".toList ⟨fun _ => 1234, fun _ => []⟩) := by
  have htext : formatted "n=%d".toList ⟨fun _ => 1234, fun _ => []⟩ = "n=1234".toList := by decide
  rw [← htext]
  have hlen : (formatted "n=%d".toList ⟨fun _ => 1234, fun _ => []⟩).length = 6 := by rw [htext]; rfl
  refine (vsnprintf_truncates_iff (by decide) ?_ ?_).mpr (Or.inl (by decide)) _
  · rw [hlen]
    decide
  · rw [hlen]
    decide

/-- Two bytes at the end of the address space have no room for one character and a zero. -/
theorem vsnprintf_drops_last : ∃ (mem : BitVec 32 → Char) (buf size : BitVec 32) (fmt : List Char) (args : VaList),
    size ≠ 0 ∧ (formatted fmt args).length < 2 ^ 31 ∧ buf.toNat + (formatted fmt args).length < 2 ^ 32 ∧
      ¬Truncates mem buf size (formatted fmt args) (rtVsnprintfAt mem buf size fmt args) := by
  refine ⟨fun _ => 'x', 0xFFFFFFFE, 2, ['a'], ⟨fun _ => 0, fun _ => []⟩, by decide, by decide, by decide, fun h => ?_⟩
  have hstored := h.stored 0 (by decide)
  have hzero : (rtVsnprintfAt (fun _ => 'x') 0xFFFFFFFE 2 ['a'] ⟨fun _ => 0, fun _ => []⟩).1
      (0xFFFFFFFE + BitVec.ofNat 32 0) = '\x00' := by decide
  rw [hzero] at hstored
  exact absurd hstored (by decide)

/-! ### The buffer alone -/

theorem foldl_put_buf (b : ℕ → Char) (size : ℕ) (l : List Char) (i : ℕ) :
    (l.foldl (Output.put size) ⟨b, 0⟩).buf i = if i < size then l.getD i (b i) else b i := by
  induction l using List.reverseRecOn with
  | nil => exact (ite_self (b i)).symm
  | append_singleton l c ih =>
    simp only [List.foldl_append, List.foldl_cons, List.foldl_nil, Output.put, (foldl_put b size l).1, getD_concat]
    by_cases hlt : l.length < size
    · rw [if_pos hlt, Function.update_apply, ih]
      by_cases hi : i = l.length
      · rw [hi, if_pos rfl, if_pos hlt, if_pos rfl]
      · rw [if_neg hi, if_neg hi]
    · rw [if_neg hlt, ih]
      split
      · rw [if_neg (by omega)]
      · rfl

theorem vsnprintf_buffer {fmt : List Char} {args : VaList} (hsize : 0 < size.toNat)
    (hfits : buf.toNat + size.toNat < 2 ^ 32) (hwrap : buf.toNat + (formatted fmt args).length < 2 ^ 32) {i : ℕ}
    (hi : i < size.toNat) : (rtVsnprintfAt mem buf size fmt args).1 (buf + BitVec.ofNat 32 i) =
      (rtVsnprintf (fun i => mem (buf + BitVec.ofNat 32 i)) size.toNat fmt args).1 i := by
  obtain ⟨hend, hstop⟩ := bufferEnd_of_fits hfits
  obtain ⟨k, hk⟩ : ∃ k, k = min (size.toNat - 1) (formatted fmt args).length := ⟨_, rfl⟩
  have haddr := toNat_add_ofNat (show buf.toNat + i < 2 ^ 32 by omega)
  have hzero := toNat_add_ofNat (show buf.toNat + k < 2 ^ 32 by omega)
  have hiff : buf + BitVec.ofNat 32 i = buf + BitVec.ofNat 32 k ↔ i = k := by
    constructor
    · intro he
      rw [he, hzero] at haddr
      omega
    · intro he
      rw [he]
  have hplace : (if (formatted fmt args).length < size.toNat then (formatted fmt args).length
      else size.toNat - 1) = k := by
    split <;> omega
  have hrange : buf.toNat ≤ buf.toNat + i ∧ buf.toNat + i < buf.toNat + size.toNat := by omega
  rw [vsnprintf_mem hend (BitVec.lt_def.mpr hsize) (by omega) hwrap, hstop, Nat.add_sub_cancel_left, ← hk]
  simp only [rtVsnprintf, if_pos hsize]
  rw [formatLoop_eq_foldl, ← formatted, (foldl_put _ _ _).1, hplace, Function.update_apply, foldl_put_buf, haddr,
    if_pos hi, if_pos hrange, Nat.add_sub_cancel_left]
  simp only [hiff]

/-! ### What the console gets -/

/-- The zero that `rt_vsnprintf` puts in the last place is passed on as well. -/
theorem rtKprintf_long {fmt : List Char} {args : VaList} (rtLogBuf : ℕ → Char)
    (hlong : consolebufSize - 1 ≤ (formatted fmt args).length) :
    rtKprintf true rtLogBuf fmt args = (formatted fmt args).take (consolebufSize - 2) ++ ['\x00'] := by
  obtain ⟨hstr, hbuf⟩ := foldl_put rtLogBuf (consolebufSize - 1) (formatted fmt args)
  have hfirst := congrArg (List.take (consolebufSize - 2)) hbuf
  rw [take_slice _ _ (by omega), List.take_take, min_eq_left (by omega)] at hfirst
  have hmem : (rtVsnprintf rtLogBuf (consolebufSize - 1) fmt args).1 = Function.update
      ((formatted fmt args).foldl (Output.put (consolebufSize - 1)) ⟨rtLogBuf, 0⟩).buf (consolebufSize - 2) '\x00' := by
    rw [rtVsnprintf, if_pos (by decide), formatLoop_eq_foldl, ← formatted, hstr, if_neg (by omega)]
    rfl
  have hlength : (if consolebufSize - 1 < (formatted fmt args).length then consolebufSize - 1
      else (formatted fmt args).length) = consolebufSize - 1 := by
    split <;> omega
  rw [rtKprintf, if_pos rfl, rtVsnprintf_snd, hlength, hmem]
  exact (slice_update _ (consolebufSize - 2) '\x00').trans (by rw [hfirst])

/-- `cap` is how much the buffer is taken to hold: 126 characters, if the two places that stay free are counted. -/
theorem rtKprintf_prefix_iff {fmt : List Char} {args : VaList} (rtLogBuf : ℕ → Char)
    (hzero : '\x00' ∉ formatted fmt args) {cap : ℕ} (hcap : consolebufSize - 2 ≤ cap) :
    rtKprintf true rtLogBuf fmt args = (formatted fmt args).take cap ↔
      (formatted fmt args).length ≤ consolebufSize - 2 := by
  have hsize : consolebufSize - 1 = consolebufSize - 2 + 1 := rfl
  constructor
  · intro h
    by_contra hlong
    rw [rtKprintf_long rtLogBuf (by omega)] at h
    have hmem : '\x00' ∈ (formatted fmt args).take cap := by
      rw [← h]
      exact List.mem_append_right _ (List.mem_singleton_self _)
    exact hzero (List.mem_of_mem_take hmem)
  · intro hshort
    rw [rtKprintf_eq rtLogBuf (by omega), List.take_of_length_le (by omega)]

theorem rtKprintf_prefix_iff_sample :
    rtKprintf true (fun _ => '?') "n=%d".toList ⟨fun _ => 1234, fun _ => []⟩ = "n=1234".toList := by
  have htext : formatted "n=%d".toList ⟨fun _ => 1234, fun _ => []⟩ = "n=1234".toList := by decide
  have hsend := (@rtKprintf_prefix_iff "n=%d".toList ⟨fun _ => 1234, fun _ => []⟩ (fun _ => '?')
    (by rw [htext]; decide) 126 (by decide)).mpr (by rw [htext]; decide)
  rwa [htext] at hsend

/-- A field of 127 spaces: 126 of them are sent, and a zero. -/
theorem rtKprintf_sends_zero : ∃ (rtLogBuf : ℕ → Char) (fmt : List Char) (args : VaList),
    '\x00' ∉ formatted fmt args ∧ '\x00' ∈ rtKprintf true rtLogBuf fmt args ∧
      ¬rtKprintf true rtLogBuf fmt args <+: formatted fmt args := by
  refine ⟨fun _ => '?', "%127s".toList, ⟨fun _ => 1, fun _ => []⟩, ?_⟩
  have htext : formatted "%127s".toList ⟨fun _ => 1, fun _ => []⟩ = List.replicate 127 ' ' := by decide +kernel
  have hno : '\x00' ∉ List.replicate 127 ' ' := fun hmem => absurd (List.eq_of_mem_replicate hmem) (by decide)
  have hsent : '\x00' ∈ rtKprintf true (fun _ => '?') "%127s".toList ⟨fun _ => 1, fun _ => []⟩ := by
    rw [rtKprintf_long _ (by rw [htext, List.length_replicate]; decide)]
    exact List.mem_append_right _ (List.mem_singleton_self _)
  rw [htext]
  exact ⟨hno, hsent, fun hstart => hno (hstart.subset hsent)⟩

end RtThread.Kservice.Vsnprintf
