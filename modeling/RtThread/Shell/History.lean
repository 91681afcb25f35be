import Mathlib
import RtThread.Shell.LineBuffer
import RtThread.Lib.Recent

/-!
# The shell: the rows of the history (`shell.c:423-462`)
-/

namespace RtThread.Shell

open RtThread.Lib.Recent

/-- The rows hold a history, from the oldest entry on. -/
structure FinshShell.Keeps (s : FinshShell) (history : List (List Byte)) : Prop where
  rows : s.cmdHistory.length = finshHistoryLines
  count : s.historyCount = history.length
  entries : s.cmdHistory.take s.historyCount = history.map filled

/-- The line has the text of the last entry. -/
def FinshShell.Repeats (s : FinshShell) : Prop := s.historyCount ≠ 0 ∧ s.row (s.historyCount - 1) = s.entry

/-- The line has the bytes of the last entry. -/
def FinshShell.Same (s : FinshShell) : Prop := s.historyCount ≠ 0 ∧ s.row (s.historyCount - 1) = s.line

/-- What is left over in the line is zero. -/
def FinshShell.Clean (s : FinshShell) : Prop := s.line = s.entry

instance (s : FinshShell) : Decidable s.Repeats := inferInstanceAs (Decidable (_ ∧ _))

instance (s : FinshShell) : Decidable s.Same := inferInstanceAs (Decidable (_ ∧ _))

instance (s : FinshShell) : Decidable s.Clean := inferInstanceAs (Decidable (_ = _))

variable {s : FinshShell} {history : List (List Byte)} {before behind tail text : List Byte}

theorem FinshShell.Keeps.length_le (h : s.Keeps history) : history.length ≤ finshHistoryLines := by
  have hlength := congrArg List.length h.entries
  rw [List.length_take, List.length_map, h.rows] at hlength
  omega

theorem FinshShell.Keeps.row (h : s.Keeps history) {i : ℕ} (hi : i < history.length) : s.row i = filled history[i] := by
  have hread : (s.cmdHistory.take s.historyCount)[i]? = some (filled history[i]) := by
    rw [h.entries, List.getElem?_map, List.getElem?_eq_getElem hi]
    rfl
  rw [List.getElem?_take_of_lt (by rw [h.count]; exact hi)] at hread
  rw [FinshShell.row, List.getD_eq_getElem?_getD, hread]
  rfl

theorem FinshShell.Keeps.repeats_iff (h : s.Keeps history) (htexts : ∀ t ∈ history, IsText t)
    (hline : s.Holds before behind tail) (htext : IsText (before ++ behind)) :
    s.Repeats ↔ history.getLast? = some (before ++ behind) := by
  rw [FinshShell.Repeats, hline.entry]
  rcases List.eq_nil_or_concat history with rfl | ⟨init, last, hlast⟩
  · exact iff_of_false (fun hrep => hrep.1 h.count) (by rintro ⟨⟩)
  · rw [List.concat_eq_append] at hlast
    subst hlast
    have hcount := h.count
    rw [List.length_append, List.length_singleton] at hcount
    have hrow := h.row (i := init.length) (by rw [List.length_append]; exact Nat.lt_succ_self init.length)
    rw [List.getElem_concat_length rfl] at hrow
    rw [hcount, Nat.add_sub_cancel, hrow, List.getLast?_concat, Option.some.injEq]
    constructor
    · intro hrep
      exact filled_inj (htexts last (List.mem_append_right init (List.mem_singleton_self last))) htext hrep.2
    · intro he
      exact ⟨Nat.succ_ne_zero init.length, congrArg filled he⟩

theorem moveHistory_eq {rows : List (List Byte)} (h : rows.length = finshHistoryLines) (row : List Byte) :
    (moveHistory rows).set (finshHistoryLines - 1) row = rows.tail ++ [row] := by
  obtain ⟨a, rows, rfl⟩ := List.exists_cons_of_length_eq_add_one h
  obtain ⟨b, rows, rfl⟩ := List.exists_cons_of_length_eq_add_one (Nat.succ.inj h)
  obtain ⟨c, d, e, rfl⟩ := List.length_eq_three.mp (Nat.succ.inj (Nat.succ.inj h))
  rfl

/-- The line is a new entry. -/
def FinshShell.pushed (s : FinshShell) : FinshShell :=
  if finshHistoryLines ≤ s.historyCount then
    { s with
      cmdHistory := (moveHistory s.cmdHistory).set (finshHistoryLines - 1) s.entry
      historyCount := finshHistoryLines }
  else
    { s with
      cmdHistory := s.cmdHistory.set s.historyCount s.entry
      historyCount := s.historyCount + 1 }

theorem FinshShell.Keeps.pushed (h : s.Keeps history) (hentry : s.entry = filled text) :
    s.pushed.Keeps ((history ++ [text]).rtake finshHistoryLines) := by
  have hle := h.length_le
  have hentries := h.entries
  rw [FinshShell.pushed]
  split
  · have hcount : s.historyCount = finshHistoryLines := by
      rw [h.count]
      have := h.count
      omega
    have hfull : history.length = finshHistoryLines := h.count.symm.trans hcount
    have hrtake : (history ++ [text]).rtake finshHistoryLines = history.tail ++ [text] := by
      have hdrop : history.rtake 4 = history.tail := by
        rw [List.rtake, hfull]
        exact List.drop_one
      rw [← hdrop]
      exact List.rtake_concat_succ history 4 text
    have hrows : s.cmdHistory = history.map filled := by
      rw [hcount, ← h.rows, List.take_length] at hentries
      exact hentries
    rw [moveHistory_eq h.rows, hrtake, hrows, hentry]
    have hlength : (history.tail ++ [text]).length = finshHistoryLines := by
      rw [List.length_append, List.length_tail, hfull]
      rfl
    refine ⟨?_, hlength.symm, ?_⟩
    · rw [List.length_append, List.length_tail, List.length_map, hfull]
      rfl
    · have hmap : (history.map filled).tail ++ [filled text] = (history.tail ++ [text]).map filled := by
        rw [List.map_append, List.map_tail]
        rfl
      change List.take finshHistoryLines ((history.map filled).tail ++ [filled text]) = _
      rw [hmap, List.take_of_length_le (by rw [List.length_map, hlength])]
  · have hlt : history.length < finshHistoryLines := by
      rw [← h.count]
      omega
    have hlength : (history ++ [text]).length = history.length + 1 := by
      rw [List.length_append, List.length_singleton]
    rw [rtake_of_length_le (by rw [hlength]; exact hlt)]
    refine ⟨?_, ?_, ?_⟩
    · rw [List.length_set, h.rows]
    · rw [hlength, h.count]
    · change (s.cmdHistory.set s.historyCount s.entry).take (s.historyCount + 1) = _
      have hin : s.historyCount < s.cmdHistory.length := by
        rw [h.count, h.rows]
        exact hlt
      rw [List.take_add_one, List.take_set_of_le (Nat.le_refl _), hentries, List.getElem?_set_self hin, hentry,
        List.map_append]
      rfl

theorem shellPushHistory_eq (hle : s.historyCount ≤ finshHistoryLines) : shellPushHistory s =
    if s.linePosition = 0 ∨ s.Same then { s with currentHistory := s.historyCount }
    else { s.pushed with currentHistory := s.pushed.historyCount } := by
  rw [shellPushHistory]
  by_cases hposition : s.linePosition = 0
  · rw [if_pos (Or.inl hposition)]
    simp only [hposition, ne_eq, not_true_eq_false, if_false]
  · by_cases hfull : finshHistoryLines ≤ s.historyCount
    · have hcount : s.historyCount = finshHistoryLines := Nat.le_antisymm hle hfull
      have hsame : s.Same ↔ s.row (finshHistoryLines - 1) = s.line := by
        rw [FinshShell.Same, hcount]
        exact and_iff_right (by decide)
      simp only [hposition, ne_eq, not_false_eq_true, if_true, hfull, hsame, false_or, FinshShell.pushed]
      by_cases hrow : s.row (finshHistoryLines - 1) = s.line
      · simp only [hrow, not_true_eq_false, if_false, if_true]
      · simp only [hrow, not_false_eq_true, if_true, if_false]
    · have hsame : s.Same ↔ ¬(s.historyCount = 0 ∨ s.row (s.historyCount - 1) ≠ s.line) := by
        rw [not_or, not_not, FinshShell.Same]
      simp only [hposition, ne_eq, not_false_eq_true, if_true, hfull, if_false, hsame, false_or, FinshShell.pushed]
      by_cases hnew : s.historyCount = 0 ∨ s.row (s.historyCount - 1) ≠ s.line
      · simp only [hnew, not_true_eq_false, if_true, if_false]
      · simp only [hnew, not_false_eq_true, if_true, if_false]

/-- The history after a line. -/
def pushText (history : List (List Byte)) (text : List Byte) : List (List Byte) :=
  if text = [] then history else push finshHistoryLines history text

theorem FinshShell.Keeps.push_history (h : s.Keeps history) (htexts : ∀ t ∈ history, IsText t)
    (hline : s.Holds before behind tail) (htext : IsText (before ++ behind)) (hsame : s.Same ↔ s.Repeats) :
    (shellPushHistory s).Keeps (pushText history (before ++ behind)) := by
  have hle : s.historyCount ≤ finshHistoryLines := by
    rw [h.count]
    exact h.length_le
  have hempty : s.linePosition = 0 ↔ before ++ behind = [] := by
    rw [hline.position, ← List.length_append, List.length_eq_zero_iff]
  have hrep := hsame.trans (h.repeats_iff htexts hline htext)
  rw [shellPushHistory_eq hle, pushText, push]
  by_cases hnil : before ++ behind = []
  · rw [if_pos (Or.inl (hempty.mpr hnil)), if_pos hnil]
    exact ⟨h.rows, h.count, h.entries⟩
  · rw [if_neg hnil]
    by_cases hlast : history.getLast? = some (before ++ behind)
    · rw [if_pos (Or.inr (hrep.mpr hlast)), if_pos hlast]
      exact ⟨h.rows, h.count, h.entries⟩
    · rw [if_neg (not_or.mpr ⟨mt hempty.mp hnil, mt hrep.mp hlast⟩), if_neg hlast]
      have hpushed := h.pushed hline.entry
      exact ⟨hpushed.rows, hpushed.count, hpushed.entries⟩

theorem shellPushHistory_frame (s : FinshShell) : (shellPushHistory s).stat = s.stat ∧ (shellPushHistory s).line = s.line ∧
    (shellPushHistory s).linePosition = s.linePosition ∧ (shellPushHistory s).executed = s.executed ∧
      (shellPushHistory s).currentHistory = (shellPushHistory s).historyCount := by
  rw [shellPushHistory]
  split_ifs <;> exact ⟨rfl, rfl, rfl, rfl, rfl⟩

end RtThread.Shell
