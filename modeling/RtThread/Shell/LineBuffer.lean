import Mathlib
import RtThread.Shell.LineEditor

/-!
# The shell: the text in the line buffer (`shell.c:585-724`)

The buffer holds the characters before the cursor, those behind it, and what is left over.
-/

namespace RtThread.Shell

structure FinshShell.Holds (s : FinshShell) (before behind tail : List Byte) : Prop where
  line : s.line = before ++ behind ++ tail
  size : s.line.length = finshCmdSize
  position : s.linePosition = before.length + behind.length
  curpos : s.lineCurpos = before.length

variable {s : FinshShell} {before behind tail : List Byte} {c ch : Byte}

theorem length_line (before behind tail : List Byte) :
    (before ++ behind ++ tail).length = before.length + behind.length + tail.length := by
  rw [List.length_append, List.length_append]

/-! ### Moving a part of the line -/

theorem take_cursor (before rest : List Byte) : (before ++ rest).take before.length = before := List.take_left

theorem drop_cursor (before rest : List Byte) (n : ℕ) : (before ++ rest).drop (before.length + n) = rest.drop n := by
  rw [← List.drop_drop, List.drop_left]

theorem set_cursor (before rest : List Byte) (n : ℕ) (b : Byte) :
    (before ++ rest).set (before.length + n) b = before ++ rest.set n b := by
  rw [List.set_append_right _ _ (Nat.le_add_right before.length n), Nat.add_sub_cancel_left]

theorem memmove_insert (before behind tail : List Byte) (hbehind : behind ≠ []) :
    (memmove (before ++ behind ++ c :: tail) (before.length + 1) before.length behind.length).set before.length ch =
      before ++ ch :: behind ++ tail := by
  obtain ⟨b, behind, rfl⟩ := List.exists_cons_of_ne_nil hbehind
  have htake : (before ++ (b :: behind) ++ c :: tail).take (before.length + 1) = before ++ [b] := by
    rw [List.append_assoc, List.take_append, List.take_of_length_le (Nat.le_succ before.length),
      Nat.add_sub_cancel_left]
    rfl
  have hmove : ((before ++ (b :: behind) ++ c :: tail).drop before.length).take (b :: behind).length = b :: behind := by
    rw [List.append_assoc, List.drop_left, List.take_left]
  have hdrop : (before ++ (b :: behind) ++ c :: tail).drop (before.length + 1 + (b :: behind).length) = tail := by
    rw [List.append_assoc, Nat.add_assoc, drop_cursor, Nat.add_comm 1, drop_cursor, List.drop_one, List.tail_cons]
  have hset := set_cursor before (b :: (b :: behind ++ tail)) 0 ch
  rw [Nat.add_zero, List.set_cons_zero] at hset
  rw [memmove, htake, hmove, hdrop, List.append_assoc, List.append_assoc, List.singleton_append, hset, List.append_assoc,
    List.cons_append, List.cons_append, List.cons_append]

theorem memmove_delete (before behind tail : List Byte) :
    (memmove (before ++ [c] ++ behind ++ tail) before.length (before.length + 1) behind.length).set
      (before.length + behind.length) 0 = before ++ behind ++ 0 :: tail := by
  have htake : (before ++ [c] ++ behind ++ tail).take before.length = before := by
    rw [List.append_assoc, List.append_assoc, take_cursor]
  have hmove : ((before ++ [c] ++ behind ++ tail).drop (before.length + 1)).take behind.length = behind := by
    rw [List.append_assoc, List.append_assoc, drop_cursor, List.singleton_append, List.drop_one, List.tail_cons,
      List.take_left]
  have hdrop : ∃ x, (before ++ [c] ++ behind ++ tail).drop (before.length + behind.length) = x :: tail := by
    rw [List.append_assoc, List.append_assoc, drop_cursor, ← List.append_assoc, List.singleton_append]
    obtain ⟨init, x, hx⟩ : ∃ init x, c :: behind = init ++ [x] := by
      rcases List.eq_nil_or_concat (c :: behind) with hnil | ⟨init, x, hx⟩
      · cases hnil
      · exact ⟨init, x, hx.trans List.concat_eq_append⟩
    have hlength : behind.length = init.length := by
      have hcount := congrArg List.length hx
      rw [List.length_cons, List.length_append, List.length_singleton] at hcount
      exact Nat.succ.inj hcount
    refine ⟨x, ?_⟩
    rw [hx, hlength, List.append_assoc, List.drop_left, List.singleton_append]
  obtain ⟨x, hx⟩ := hdrop
  have hset := set_cursor (before ++ behind) (x :: tail) 0 0
  rw [Nat.add_zero, List.length_append, List.set_cons_zero] at hset
  rw [memmove, htake, hmove, hx, hset]

/-! ### What a key does to the text -/

theorem FinshShell.Holds.tail_length (h : s.Holds before behind tail) : s.linePosition + tail.length = finshCmdSize := by
  have hsize := h.size
  rw [h.line, length_line, ← h.position] at hsize
  exact hsize

theorem FinshShell.Holds.take_position (h : s.Holds before behind tail) : s.line.take s.linePosition = before ++ behind := by
  rw [h.line, h.position, ← List.length_append, List.take_left]

theorem FinshShell.Holds.drop_position (h : s.Holds before behind tail) : s.line.drop s.linePosition = tail := by
  rw [h.line, h.position, ← List.length_append, List.drop_left]

theorem FinshShell.Holds.stat (h : s.Holds before behind tail) (stat : InputStat) : { s with stat := stat }.Holds before behind tail :=
  ⟨h.line, h.size, h.position, h.curpos⟩

theorem FinshShell.Holds.left_nil (h : s.Holds [] behind tail) : s.left = s := if_neg (not_not.mpr h.curpos)

theorem FinshShell.Holds.left (h : s.Holds (before ++ [c]) behind tail) : s.left.Holds before (c :: behind) tail := by
  have hcurpos := h.curpos
  have hposition := h.position
  rw [List.length_append, List.length_singleton] at hcurpos hposition
  have hleft : s.left = { s with lineCurpos := s.lineCurpos - 1 } := if_pos (by omega)
  rw [hleft]
  refine ⟨?_, h.size, ?_, ?_⟩
  · rw [h.line, List.append_assoc before, List.singleton_append]
  · rw [hposition, List.length_cons]
    omega
  · change s.lineCurpos - 1 = before.length
    omega

theorem FinshShell.Holds.right_nil (h : s.Holds before [] tail) : s.right = s := by
  have hcurpos := h.curpos
  have hposition := h.position
  rw [List.length_nil, Nat.add_zero] at hposition
  exact if_neg (by omega)

theorem FinshShell.Holds.right (h : s.Holds before (c :: behind) tail) : s.right.Holds (before ++ [c]) behind tail := by
  have hcurpos := h.curpos
  have hposition := h.position
  rw [List.length_cons] at hposition
  have hright : s.right = { s with lineCurpos := s.lineCurpos + 1 } := if_pos (by omega)
  rw [hright]
  refine ⟨?_, h.size, ?_, ?_⟩
  · rw [h.line, List.append_assoc before [c], List.singleton_append]
  · rw [hposition, List.length_append, List.length_singleton]
    omega
  · rw [hcurpos, List.length_append, List.length_singleton]

theorem FinshShell.Holds.backspace_nil (h : s.Holds [] behind tail) : s.backspace = s := if_pos h.curpos

theorem FinshShell.Holds.backspace (h : s.Holds (before ++ [c]) behind tail) : s.backspace.Holds before behind (0 :: tail) := by
  have hcurpos := h.curpos
  have hposition := h.position
  have hsize := h.size
  rw [List.length_append, List.length_singleton] at hcurpos hposition
  have hcur : s.lineCurpos - 1 = before.length := by omega
  have hpos : s.linePosition - 1 = before.length + behind.length := by omega
  have hline : (if s.lineCurpos - 1 < s.linePosition - 1 then
      memmove s.line (s.lineCurpos - 1) (s.lineCurpos - 1 + 1) (s.linePosition - 1 - (s.lineCurpos - 1)) else s.line).set
        (s.linePosition - 1) 0 = before ++ behind ++ 0 :: tail := by
    rw [hcur, hpos, Nat.add_sub_cancel_left, h.line]
    cases behind with
    | nil =>
      have hset := set_cursor before (c :: tail) 0 0
      rw [List.set_cons_zero] at hset
      rw [if_neg (by rw [List.length_nil]; omega), List.append_nil, List.append_nil, List.append_assoc,
        List.singleton_append]
      exact hset
    | cons b behind =>
      rw [if_pos (by rw [List.length_cons]; omega)]
      exact memmove_delete before (b :: behind) tail
  have hback : s.backspace = { s with
      line := before ++ behind ++ 0 :: tail, linePosition := s.linePosition - 1, lineCurpos := s.lineCurpos - 1 } := by
    rw [FinshShell.backspace, if_neg (by omega), ← hline]
  rw [hback]
  refine ⟨rfl, ?_, hpos, hcur⟩
  rw [h.line, length_line, List.length_append, List.length_singleton] at hsize
  rw [length_line, List.length_cons]
  omega

theorem FinshShell.Holds.insert_line (h : s.Holds before behind (c :: tail)) (ch : Byte) :
    (if s.lineCurpos < s.linePosition then
      (memmove s.line (s.lineCurpos + 1) s.lineCurpos (s.linePosition - s.lineCurpos)).set s.lineCurpos ch
    else s.line.set s.linePosition ch) = before ++ ch :: behind ++ tail := by
  rw [h.curpos, h.position, Nat.add_sub_cancel_left, h.line]
  cases behind with
  | nil =>
    have hset := set_cursor before (c :: tail) 0 ch
    rw [List.set_cons_zero] at hset
    rw [if_neg (by rw [List.length_nil]; omega), List.append_nil, List.append_assoc, List.singleton_append]
    exact hset
  | cons b behind =>
    rw [if_pos (by rw [List.length_cons]; omega)]
    exact memmove_insert before (b :: behind) tail (List.cons_ne_nil b behind)

theorem FinshShell.Holds.insert_eq (h : s.Holds before behind (c :: tail)) (ch : Byte) :
    s.insert ch = if tail = [] then { s with line := before ++ ch :: behind ++ tail, linePosition := 0, lineCurpos := 0 }
      else { s with
        line := before ++ ch :: behind ++ tail, linePosition := s.linePosition + 1, lineCurpos := s.lineCurpos + 1 } := by
  have htail := h.tail_length
  rw [List.length_cons] at htail
  have hroom : ¬finshCmdSize ≤ s.linePosition := by omega
  have hfull : finshCmdSize ≤ s.linePosition + 1 ↔ tail = [] := by
    rw [← List.length_eq_zero_iff]
    omega
  rw [FinshShell.insert]
  simp only [if_neg hroom, h.insert_line, hfull]

theorem length_insert (h : s.Holds before behind (c :: tail)) (ch : Byte) :
    (before ++ ch :: behind ++ tail).length = finshCmdSize := by
  have hsize := h.size
  rw [h.line, length_line, List.length_cons] at hsize
  rw [length_line, List.length_cons]
  omega

theorem FinshShell.Holds.insert (h : s.Holds before behind (c :: tail)) (htail : tail ≠ []) (ch : Byte) :
    (s.insert ch).Holds (before ++ [ch]) behind tail := by
  rw [h.insert_eq, if_neg htail]
  refine ⟨?_, length_insert h ch, ?_, ?_⟩
  · rw [List.append_assoc before [ch], List.singleton_append]
  · change s.linePosition + 1 = (before ++ [ch]).length + behind.length
    rw [h.position, List.length_append, List.length_singleton]
    omega
  · rw [h.curpos, List.length_append, List.length_singleton]

theorem FinshShell.Holds.insert_full (h : s.Holds before behind [c]) (ch : Byte) :
    (s.insert ch).Holds [] [] (before ++ ch :: behind) := by
  have hlength := length_insert h ch
  rw [h.insert_eq, if_pos rfl, List.append_nil]
  rw [List.append_nil] at hlength
  exact ⟨rfl, hlength, rfl, rfl⟩

/-! ### Rows of the history -/

/-- A text that is filled up to the size of the line. -/
def filled (text : List Byte) : List Byte := text ++ zeros (finshCmdSize - text.length)

/-- A text that a line can have. -/
structure IsText (text : List Byte) : Prop where
  short : text.length < finshCmdSize
  plain : ∀ b ∈ text, b ≠ 0

theorem length_filled {text : List Byte} (h : text.length ≤ finshCmdSize) : (filled text).length = finshCmdSize := by
  rw [filled, zeros, List.length_append, List.length_replicate, Nat.add_sub_cancel' h]

theorem rtStrlen_filled {text : List Byte} (h : IsText text) : rtStrlen (filled text) = text.length := by
  have hzeros : zeros (finshCmdSize - text.length) = 0 :: zeros (finshCmdSize - text.length - 1) := by
    rw [← zeros_succ, Nat.sub_add_cancel (Nat.sub_pos_of_lt h.short)]
  have htake : (text ++ 0 :: zeros (finshCmdSize - text.length - 1)).takeWhile (· ≠ 0) = text := by
    rw [List.takeWhile_append_of_pos fun b hb => decide_eq_true (h.plain b hb)]
    exact List.append_nil text
  rw [rtStrlen, filled, hzeros, htake]

theorem takeWhile_filled {text : List Byte} (h : IsText text) : (filled text).takeWhile (· ≠ 0) = text := by
  have hprefix : (filled text).takeWhile (· ≠ 0) <+: filled text := List.takeWhile_prefix _
  have htake := List.prefix_iff_eq_take.mp hprefix
  have hlength : ((filled text).takeWhile (· ≠ 0)).length = text.length := rtStrlen_filled h
  rw [hlength, filled, List.take_left] at htake
  exact htake

theorem filled_inj {text text' : List Byte} (h : IsText text) (h' : IsText text') (he : filled text = filled text') :
    text = text' := by
  rw [← takeWhile_filled h, ← takeWhile_filled h', he]

theorem FinshShell.Holds.recall {i : ℕ} {text : List Byte} (hrow : s.row i = filled text) (h : IsText text) :
    (s.recall i).Holds text [] (zeros (finshCmdSize - text.length)) := by
  rw [FinshShell.recall, hrow, rtStrlen_filled h]
  refine ⟨?_, length_filled h.short.le, rfl, rfl⟩
  rw [List.append_nil]
  rfl

theorem FinshShell.Holds.entry (h : s.Holds before behind tail) : s.entry = filled (before ++ behind) := by
  rw [FinshShell.entry, h.take_position, filled, List.length_append, ← h.position]

end RtThread.Shell
