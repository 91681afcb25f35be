import Mathlib
import RtThread.Shell.Editor
import RtThread.Lib.Transition

/-!
# The shell: runs of keys
-/

namespace RtThread.Shell

open RtThread.Lib.Recent RtThread.Lib.Transition

/-- All keys but TAB. -/
def Key : Type := {ch : Byte // ch ≠ tab}

def keyStep (s : FinshShell) (ch : Key) : Option FinshShell := some (s.key ch.1)

/-- The shell and the editor with the same keys. -/
def bothStep (p : FinshShell × Editor) (ch : Key) : Option (FinshShell × Editor) := some (p.1.key ch.1, p.2.key ch.1)

variable {s : FinshShell} {e : Editor} {tail : List Byte} {ch : Byte}

theorem start_refines : Refines finshSystemInit Editor.start (zeros finshCmdSize) :=
  ⟨rfl, ⟨rfl, rfl, rfl, rfl⟩, by decide, Or.inl (blank_zeros _), fun _ hb => absurd hb List.not_mem_nil, ⟨rfl, rfl, rfl⟩, rfl,
    Nat.le_refl 0, rfl, fun _ ht => absurd ht List.not_mem_nil⟩

/-- A line is executed that repeats the last one, with something left over behind it. -/
def FinshShell.RepeatsStale (s : FinshShell) (ch : Byte) : Prop := (decode s.stat ch).2 = .run ∧ s.Repeats ∧ ¬s.Clean

/-- A character is typed at the end of the room. -/
def FinshShell.TypesFull (s : FinshShell) (ch : Byte) : Prop :=
  (∃ c, (decode s.stat ch).2 = .insert c) ∧ s.linePosition + 1 = finshCmdSize

theorem refines_key (h : Refines s e tail) (hstale : ¬s.RepeatsStale ch) :
    ∃ tail', Refines (s.key ch) (e.key ch) tail' ∧ (Blank tail → (Blank tail' ↔ ¬s.TypesFull ch)) := by
  have hstat : (decode e.stat ch) = decode s.stat ch := by rw [h.stat]
  have hclean : (decode s.stat ch).2 = .run → { s with stat := (decode s.stat ch).1 }.Repeats →
      { s with stat := (decode s.stat ch).1 }.Clean := by
    intro hrun hrep
    by_contra hnot
    exact hstale ⟨hrun, hrep, hnot⟩
  obtain ⟨tail', hact, hblank⟩ :=
    refines_act (h.with_stat (decode s.stat ch).1) (fun c hc => decode_insert hc) hclean
  rw [key_eq, Editor.key, hstat]
  refine ⟨tail', hact, fun ht => (hblank ht).trans ?_⟩
  constructor
  · intro hall hfull
    obtain ⟨⟨c, hc⟩, hposition⟩ := hfull
    exact hall c hc hposition
  · intro hnot c hc hposition
    exact hnot ⟨⟨c, hc⟩, hposition⟩

/-! ### The line -/

/-- The line has the text of the editor, and nothing else. -/
structure Edits (s : FinshShell) (e : Editor) : Prop where
  curpos_le : s.lineCurpos ≤ s.linePosition
  position_lt : s.linePosition < finshCmdSize
  zero : ∀ b ∈ s.line.drop s.linePosition, b = 0
  text : s.line.take s.linePosition = e.text
  cursor : s.lineCurpos = e.before.length
  executed : s.executed = e.executed.map fun text => (filled text, text.length)

theorem Refines.edits_iff (h : Refines s e tail)
    (hexecuted : s.executed = e.executed.map fun text => (filled text, text.length)) : Edits s e ↔ Blank tail := by
  have hdrop := h.holds.drop_position
  constructor
  · intro hedits
    rw [← hdrop]
    exact hedits.zero
  · intro hblank
    refine ⟨?_, ?_, by rw [hdrop]; exact hblank, h.holds.take_position, h.holds.curpos, hexecuted⟩
    · rw [h.holds.curpos, h.holds.position]
      exact Nat.le_add_right _ _
    · have hshort := h.isText.short
      rw [h.holds.position, ← List.length_append]
      exact hshort

theorem act_executed (s : FinshShell) {edit : Edit} (h : edit ≠ .run) : (s.act edit).executed = s.executed := by
  cases edit with
  | nothing => rfl
  | insert ch =>
    rw [FinshShell.act, FinshShell.insert]
    simp only [apply_ite FinshShell.executed, ite_self]
  | delete =>
    rw [FinshShell.act, FinshShell.backspace]
    split <;> rfl
  | left =>
    rw [FinshShell.act, FinshShell.left]
    split <;> rfl
  | right =>
    rw [FinshShell.act, FinshShell.right]
    split <;> rfl
  | older =>
    rw [FinshShell.act]
    cases s.upRow <;> rfl
  | newer =>
    rw [FinshShell.act]
    cases s.downRow <;> rfl
  | run => exact absurd rfl h

theorem apply_executed (e : Editor) {edit : Edit} (h : edit ≠ .run) : (e.apply edit).executed = e.executed := by
  cases edit with
  | nothing => rfl
  | insert ch =>
    rw [Editor.apply, Editor.insert]
    split <;> rfl
  | delete => rfl
  | left => rfl
  | right => rfl
  | older =>
    rw [Editor.apply]
    split <;> rfl
  | newer =>
    rw [Editor.apply]
    split_ifs <;> rfl
  | run => exact absurd rfl h

theorem enter_executed (s : FinshShell) : s.enter.executed = s.executed ++ [(s.line, s.linePosition)] := by
  obtain ⟨-, hline, hposition, hexecuted, -⟩ := shellPushHistory_frame s
  rw [FinshShell.enter]
  simp only
  rw [hexecuted, hline, hposition]

theorem key_executed (h : Refines s e tail) (hblank : Blank tail)
    (hexecuted : s.executed = e.executed.map fun text => (filled text, text.length)) (ch : Byte) :
    (s.key ch).executed = (e.key ch).executed.map fun text => (filled text, text.length) := by
  have hstat : decode e.stat ch = decode s.stat ch := by rw [h.stat]
  rw [key_eq, Editor.key, hstat]
  by_cases hrun : (decode s.stat ch).2 = .run
  · have hline : s.line = filled e.text := ((clean_iff h).mpr hblank).trans h.holds.entry
    have hposition : s.linePosition = e.text.length := by rw [h.holds.position, Editor.text, List.length_append]
    have hcall : [(s.line, s.linePosition)] = [e.text].map fun text => (filled text, text.length) := by
      rw [hline, hposition]
      rfl
    rw [hrun, FinshShell.act, enter_executed]
    change s.executed ++ [(s.line, s.linePosition)] = (e.executed ++ [e.text]).map _
    rw [List.map_append, ← hexecuted, hcall]
  · rw [act_executed _ hrun, apply_executed _ hrun]
    exact hexecuted

/-- The shell refines the editor, and has executed the same texts. -/
def Follows (p : FinshShell × Editor) : Prop :=
  (∃ tail, Refines p.1 p.2 tail) ∧ p.1.executed = p.2.executed.map fun text => (filled text, text.length)

theorem follows_key {p p' : FinshShell × Editor} {ch : Key} (h : Follows p) (hedits : Edits p.1 p.2)
    (hstep : bothStep p ch = some p') : Follows p' ∧ (Edits p'.1 p'.2 ↔ ¬p.1.TypesFull ch.1) := by
  obtain ⟨⟨tail, hrefines⟩, hexecuted⟩ := h
  have hblank := (hrefines.edits_iff hexecuted).mp hedits
  have hstale : ¬p.1.RepeatsStale ch.1 := fun h => h.2.2 ((clean_iff hrefines).mpr hblank)
  obtain ⟨tail', hkey, hiff⟩ := refines_key hrefines hstale
  have hcalls := key_executed hrefines hblank hexecuted ch.1
  cases hstep
  exact ⟨⟨⟨tail', hkey⟩, hcalls⟩, (hkey.edits_iff hcalls).trans (hiff hblank)⟩

theorem follows_start : Follows (finshSystemInit, Editor.start) := ⟨⟨_, start_refines⟩, rfl⟩

theorem edits_start : Edits finshSystemInit Editor.start := (start_refines.edits_iff rfl).mpr (blank_zeros _)

/-- The line, the cursor and the calls of `msh_exec` are those of the editor exactly if no character is typed when the
line has room for no more than it. -/
theorem line_edited_iff (keys : List Key) :
    AllStates bothStep (fun p => Edits p.1 p.2) (finshSystemInit, Editor.start) keys ↔
      AllSteps bothStep (fun p ch => ¬p.1.TypesFull ch.1) (finshSystemInit, Editor.start) keys := by
  apply allStates_iff_allSteps_of_inv Follows
  · intro p ch p' h hedits hstep
    exact (follows_key h hedits hstep).1
  · intro p ch p' h hedits hstep
    exact (follows_key h hedits hstep).2
  · exact follows_start
  · exact edits_start

/-! ### The history -/

/-- The executed lines that are not empty, without consecutive duplicates. -/
def FinshShell.commands (s : FinshShell) : List (List Byte) := (s.texts.filter (· ≠ [])).destutter (· ≠ ·)

structure FinshShell.Remembers (s : FinshShell) : Prop where
  count : s.historyCount = min finshHistoryLines s.commands.length
  rows : s.cmdHistory.take s.historyCount = (s.commands.rtake finshHistoryLines).map filled
  current_le : s.currentHistory ≤ s.historyCount
  up : ∀ i ∈ s.upRow, i < s.historyCount
  down : ∀ i ∈ s.downRow, i < s.historyCount

theorem Refines.remembers (h : Refines s e tail) : s.Remembers := by
  have hhistory : e.history = s.commands.rtake finshHistoryLines := by
    rw [Editor.history, Editor.commands, ← h.executed]
    rfl
  have hle := h.index_le
  refine ⟨?_, ?_, ?_, ?_, ?_⟩
  · rw [h.keeps.count, hhistory, length_rtake]
  · rw [h.keeps.entries, hhistory]
  · rw [h.index, h.keeps.count]
    exact hle
  · intro i hi
    rw [upRow_eq h] at hi
    split at hi
    · cases hi
      rw [h.keeps.count]
      omega
    · cases hi
  · intro i hi
    rw [downRow_eq h] at hi
    split_ifs at hi with hnext hempty
    · cases hi
      rw [h.keeps.count]
      exact hnext
    · cases hi
      have hpos := List.length_pos_iff.mpr hempty
      rw [h.keeps.count]
      omega
    · cases hi

theorem commands_isChain (s : FinshShell) : (s.commands.rtake finshHistoryLines).IsChain (· ≠ ·) :=
  recent_isChain finshHistoryLines _

theorem rows_isChain {l : List (List Byte)} (h : l.IsChain (· ≠ ·)) (htexts : ∀ t ∈ l, IsText t) :
    (l.map filled).IsChain (· ≠ ·) := by
  rw [List.isChain_map]
  refine h.imp_of_mem_imp fun t u ht hu hne => ?_
  exact fun he => hne (filled_inj (htexts t ht) (htexts u hu) he)

theorem Refines.run_texts (h : Refines s e tail) : ∀ t ∈ s.enter.texts, IsText t := by
  intro t ht
  rw [FinshShell.texts, enter_executed, List.map_append, ← FinshShell.texts, h.executed] at ht
  rcases List.mem_append.mp ht with hold | hnew
  · exact h.texts t hold
  · rw [List.mem_singleton.mp hnew]
    change IsText (s.line.take s.linePosition)
    rw [h.holds.take_position]
    exact h.isText

theorem not_remembers_enter (h : Refines s e tail) (hrep : s.Repeats) (hclean : ¬s.Clean) : ¬s.enter.Remembers := by
  have hlast := (h.keeps.repeats_iff h.history_isText h.holds h.isText).mp hrep
  have hle : s.historyCount ≤ finshHistoryLines := by
    rw [h.keeps.count]
    exact h.keeps.length_le
  have hposition : s.linePosition ≠ 0 := by
    have hcommand : e.text ∈ e.commands := mem_of_mem_recent (List.mem_of_getLast? hlast)
    have hne : e.text ≠ [] := of_decide_eq_true (List.mem_filter.mp hcommand).2
    rw [h.holds.position, ← List.length_append]
    exact fun hzero => hne (List.eq_nil_of_length_eq_zero hzero)
  have hpush : shellPushHistory s = { s.pushed with currentHistory := s.pushed.historyCount } := by
    rw [shellPushHistory_eq hle, if_neg (not_or.mpr ⟨hposition, not_same h hclean⟩)]
  have hpushed := h.keeps.pushed h.holds.entry
  obtain ⟨init, hinit⟩ : ∃ init, e.history = init ++ [e.text] := List.getLast?_eq_some_iff.mp hlast
  have htwice : (e.history ++ [e.text]).rtake finshHistoryLines = init.rtake 3 ++ [e.text, e.text] := by
    change (e.history ++ [e.text]).rtake 5 = _
    rw [List.rtake_concat_succ, hinit, List.rtake_concat_succ, List.append_assoc, List.singleton_append]
  intro hrem
  have hrows : s.enter.cmdHistory.take s.enter.historyCount = (init.rtake 3 ++ [e.text, e.text]).map filled := by
    rw [FinshShell.enter, hpush, ← htwice]
    exact hpushed.entries
  have hchain := rows_isChain (commands_isChain s.enter) fun t ht =>
    h.run_texts t (List.mem_filter.mp (mem_of_mem_recent ht)).1
  rw [← hrem.rows, hrows, List.map_append] at hchain
  exact (List.isChain_cons_cons.mp (List.isChain_append.mp hchain).2.1).1 rfl

/-- The history is right exactly if no line that repeats the last one is executed with something left over behind it. -/
theorem history_latest_iff (keys : List Key) : AllStates keyStep FinshShell.Remembers finshSystemInit keys ↔
    AllSteps keyStep (fun s ch => ¬s.RepeatsStale ch.1) finshSystemInit keys := by
  apply allStates_iff_allSteps_of_next fun s => ∃ e tail, Refines s e tail
  · rintro s ch s' ⟨e, tail, h⟩ hrem hstep ⟨hrun, hrep, hclean⟩
    cases hstep
    have hstat := h.with_stat (decode s.stat ch.1).1
    rw [key_eq, hrun] at hrem
    exact not_remembers_enter hstat hrep hclean hrem
  · rintro s ch s' ⟨e, tail, h⟩ hstale hstep
    obtain ⟨tail', hkey, -⟩ := refines_key h hstale
    cases hstep
    exact ⟨⟨e.key ch.1, tail', hkey⟩, hkey.remembers⟩
  · exact ⟨Editor.start, _, start_refines⟩
  · exact start_refines.remembers

/-! ### A full line -/

def letter : Key := ⟨0x61, by decide⟩

def newLine : Key := ⟨0x0a, by decide⟩

/-- The line after `n` letters. -/
def FinshShell.typed (s : FinshShell) (n : ℕ) : FinshShell :=
  { s with
    line := List.replicate n 0x61 ++ zeros (finshCmdSize - n)
    linePosition := n
    lineCurpos := n }

theorem typed_holds (s : FinshShell) {n : ℕ} (hn : n ≤ finshCmdSize) :
    (s.typed n).Holds (List.replicate n 0x61) [] (zeros (finshCmdSize - n)) := by
  refine ⟨?_, ?_, ?_, ?_⟩
  · rw [List.append_nil]
    rfl
  · change (List.replicate n 0x61 ++ zeros (finshCmdSize - n)).length = finshCmdSize
    rw [zeros, List.length_append, List.length_replicate, List.length_replicate, Nat.add_sub_cancel' hn]
  · exact List.length_replicate.symm
  · exact List.length_replicate.symm

theorem key_letter (h : s.stat = .waitNormal) : s.key 0x61 = s.insert 0x61 := by
  obtain ⟨stat, currentHistory, historyCount, cmdHistory, line, linePosition, lineCurpos, executed⟩ := s
  obtain rfl : stat = .waitNormal := h
  rfl

theorem exec_typed (hstat : s.stat = .waitNormal) {n : ℕ} (hn : n < finshCmdSize) :
    exec keyStep (s.typed 0) (List.replicate n letter) = some (s.typed n) := by
  induction n with
  | zero => rfl
  | succ n ih =>
    have hzeros : zeros (finshCmdSize - n) = 0 :: zeros (finshCmdSize - (n + 1)) := by
      rw [← zeros_succ]
      congr 1
      omega
    have hholds := typed_holds s (n := n) (by omega)
    rw [hzeros] at hholds
    have hroom : zeros (finshCmdSize - (n + 1)) ≠ [] := by
      rw [← List.length_pos_iff, zeros, List.length_replicate]
      omega
    have hkey : (s.typed n).key 0x61 = s.typed (n + 1) := by
      rw [key_letter (s := s.typed n) hstat, hholds.insert_eq, if_neg hroom, FinshShell.typed, FinshShell.typed,
        List.replicate_succ', List.append_assoc]
    rw [List.replicate_succ', exec_append, ih (by omega), Option.bind_some]
    exact congrArg some hkey

theorem exec_full (hstat : s.stat = .waitNormal) :
    exec keyStep (s.typed 0) (List.replicate finshCmdSize letter) = some { s with
      line := List.replicate finshCmdSize 0x61, linePosition := 0, lineCurpos := 0 } := by
  have hholds : (s.typed 79).Holds (List.replicate 79 0x61) [] (0 :: []) := typed_holds s (by decide)
  have hkey : (s.typed 79).key 0x61 = { s with
      line := List.replicate finshCmdSize 0x61, linePosition := 0, lineCurpos := 0 } := by
    have hinsert := hholds.insert_eq 0x61
    rw [if_pos rfl] at hinsert
    have hwait : (s.typed 79).stat = .waitNormal := hstat
    exact (key_letter hwait).trans hinsert
  change exec keyStep (s.typed 0) (List.replicate (79 + 1) letter) = _
  rw [List.replicate_succ', exec_append, exec_typed hstat (by decide), Option.bind_some]
  exact congrArg some hkey

theorem exec_both {s' : FinshShell} {keys : List Key} (h : exec keyStep s keys = some s') (e : Editor) :
    ∃ e', exec bothStep (s, e) keys = some (s', e') := by
  induction keys generalizing s e with
  | nil =>
    cases h
    exact ⟨e, rfl⟩
  | cons ch keys ih => exact ih h (e.key ch.1)

/-- Eighty letters leave their line behind. -/
theorem letters_left : ¬AllStates bothStep (fun p => Edits p.1 p.2) (finshSystemInit, Editor.start)
    (List.replicate finshCmdSize letter) := by
  intro hall
  have hrun := exec_full (s := finshSystemInit) rfl
  obtain ⟨e', hboth⟩ := exec_both hrun Editor.start
  have hedits := hall.exec hboth
  have hmem : (0x61 : Byte) ∈ (List.replicate finshCmdSize 0x61).drop 0 := List.mem_replicate.mpr ⟨by decide, rfl⟩
  exact absurd (hedits.zero 0x61 hmem) (by decide)

/-- The line `a` is remembered twice, because of a full line in between. -/
theorem line_remembered_twice : ¬AllStates keyStep FinshShell.Remembers finshSystemInit
    ([letter, newLine] ++ List.replicate finshCmdSize letter ++ [letter, newLine]) := by
  intro hall
  have hfirst : exec keyStep finshSystemInit [letter, newLine] =
      some (((finshSystemInit.key 0x61).key 0x0a).typed 0) := rfl
  have hfull := exec_full (s := (finshSystemInit.key 0x61).key 0x0a) rfl
  obtain ⟨last, hlast, hrun⟩ : ∃ s, exec keyStep finshSystemInit
      ([letter, newLine] ++ List.replicate finshCmdSize letter ++ [letter, newLine]) = some s ∧
        s.historyCount ≠ min finshHistoryLines s.commands.length := by
    rw [exec_append, exec_append, hfirst, Option.bind_some, hfull, Option.bind_some]
    exact ⟨_, rfl, by decide⟩
  exact hrun (hall.exec hlast).count

end RtThread.Shell
