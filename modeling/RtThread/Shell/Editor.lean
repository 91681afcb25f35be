import Mathlib
import RtThread.Shell.History

/-!
# The shell: an editor for a line

The editor keeps the text before the cursor, the text behind it and the lines that were executed. The shell refines it
while no line that repeats the last one is executed with something left over.
-/

namespace RtThread.Shell

open RtThread.Lib.Recent

/-- What a key asks for. -/
inductive Edit where
  | nothing
  | insert (ch : Byte)
  | delete
  | left
  | right
  | older
  | newer
  | run

def plainEdit (ch : Byte) : Edit :=
  if ch = 0 ∨ ch = 0xff then .nothing
  else if ch = 0x7f ∨ ch = 0x08 then .delete
  else if ch = 0x0d ∨ ch = 0x0a then .run
  else .insert ch

/-- The keys behind `ESC [` are `A`, `B`, `D` and `C`. -/
def decode (stat : InputStat) (ch : Byte) : InputStat × Edit :=
  if ch = 0x1b then (.waitSpecKey, .nothing)
  else
    match stat with
    | .waitNormal => (.waitNormal, plainEdit ch)
    | .waitSpecKey => if ch = 0x5b then (.waitFuncKey, .nothing) else (.waitNormal, plainEdit ch)
    | .waitFuncKey =>
      (.waitNormal,
        if ch = 0x41 then .older
        else if ch = 0x42 then .newer
        else if ch = 0x44 then .left
        else if ch = 0x43 then .right
        else plainEdit ch)

structure Editor where
  stat : InputStat
  before : List Byte
  behind : List Byte
  index : ℕ
  executed : List (List Byte)

namespace Editor

def start : Editor := ⟨.waitNormal, [], [], 0, []⟩

def text (e : Editor) : List Byte := e.before ++ e.behind

/-- The lines that are not empty. -/
def commands (e : Editor) : List (List Byte) := e.executed.filter (· ≠ [])

def history (e : Editor) : List (List Byte) := recent finshHistoryLines e.commands

def fetch (e : Editor) (i : ℕ) : Editor := { e with before := e.history.getD i [], behind := [], index := i }

/-- The line is executed, and the next one is empty. -/
def run (e : Editor) : Editor :=
  let e := { e with executed := e.executed ++ [e.text], before := [], behind := [] }
  { e with index := e.history.length }

/-- A text that fills the line is discarded. -/
def insert (e : Editor) (ch : Byte) : Editor :=
  if e.text.length + 1 < finshCmdSize then { e with before := e.before ++ [ch] } else { e with before := [], behind := [] }

def apply (e : Editor) : Edit → Editor
  | .nothing => e
  | .insert ch => e.insert ch
  | .delete => { e with before := e.before.dropLast }
  | .left => { e with before := e.before.dropLast, behind := e.before.getLast?.toList ++ e.behind }
  | .right => { e with before := e.before ++ e.behind.head?.toList, behind := e.behind.tail }
  | .older => if 0 < e.index then e.fetch (e.index - 1) else e
  | .newer =>
    if e.index + 1 < e.history.length then e.fetch (e.index + 1)
    else if e.history ≠ [] then e.fetch (e.history.length - 1)
    else e
  | .run => e.run

def key (e : Editor) (ch : Byte) : Editor := { e with stat := (decode e.stat ch).1 }.apply (decode e.stat ch).2

end Editor

/-! ### The keys of the shell -/

def FinshShell.act (s : FinshShell) : Edit → FinshShell
  | .nothing => s
  | .insert ch => s.insert ch
  | .delete => s.backspace
  | .left => s.left
  | .right => s.right
  | .older => s.upRow.elim s s.recall
  | .newer => s.downRow.elim s s.recall
  | .run => s.enter

theorem plainKey_eq (s : FinshShell) (ch : Byte) : s.plainKey ch = s.act (plainEdit ch) := by
  rw [FinshShell.plainKey, plainEdit]
  split_ifs
  · rfl
  · rfl
  · rfl
  · rfl

theorem key_eq (s : FinshShell) (ch : Byte) :
    s.key ch = { s with stat := (decode s.stat ch).1 }.act (decode s.stat ch).2 := by
  rw [FinshShell.key, decode.eq_def]
  by_cases hesc : ch = 0x1b
  · rw [if_pos hesc, if_pos hesc]
    rfl
  · rw [if_neg hesc, if_neg hesc]
    obtain ⟨stat, currentHistory, historyCount, cmdHistory, line, linePosition, lineCurpos, executed⟩ := s
    cases stat with
    | waitNormal => exact plainKey_eq _ ch
    | waitSpecKey =>
      simp only
      split
      · rfl
      · exact plainKey_eq _ ch
    | waitFuncKey =>
      simp only
      split_ifs
      · rfl
      · rfl
      · rfl
      · rfl
      · exact plainKey_eq _ ch

/-! ### Refinement -/

/-- The texts that were executed. -/
def FinshShell.texts (s : FinshShell) : List (List Byte) := s.executed.map fun call => call.1.take call.2

def Blank (tail : List Byte) : Prop := ∀ b ∈ tail, b = 0

/-- What is left over is zero, or its last character is not. -/
def Leftover (tail : List Byte) : Prop := Blank tail ∨ ∀ b ∈ tail.getLast?, b ≠ 0

structure Refines (s : FinshShell) (e : Editor) (tail : List Byte) : Prop where
  stat : s.stat = e.stat
  holds : s.Holds e.before e.behind tail
  room : tail ≠ []
  leftover : Leftover tail
  plain : ∀ b ∈ e.text, b ≠ 0
  keeps : s.Keeps e.history
  index : s.currentHistory = e.index
  index_le : e.index ≤ e.history.length
  executed : s.texts = e.executed
  texts : ∀ t ∈ e.executed, IsText t

variable {s : FinshShell} {e : Editor} {tail : List Byte} {ch : Byte}

theorem blank_zeros (n : ℕ) : Blank (zeros n) := fun _ hb => List.eq_of_mem_replicate hb

theorem Blank.cons (h : Blank tail) : Blank (0 :: tail) := by
  intro b hb
  rcases List.mem_cons.mp hb with hzero | hrest
  · exact hzero
  · exact h b hrest

theorem Blank.of_cons {c : Byte} (h : Blank (c :: tail)) : Blank tail := fun b hb => h b (List.mem_cons_of_mem c hb)

theorem Leftover.cons (h : Leftover tail) (hroom : tail ≠ []) : Leftover (0 :: tail) := by
  rcases h with hblank | hlast
  · exact Or.inl hblank.cons
  · obtain ⟨b, tail, rfl⟩ := List.exists_cons_of_ne_nil hroom
    refine Or.inr ?_
    rw [List.getLast?_cons_cons]
    exact hlast

theorem Leftover.of_cons {c : Byte} (h : Leftover (c :: tail)) (hroom : tail ≠ []) : Leftover tail := by
  rcases h with hblank | hlast
  · exact Or.inl hblank.of_cons
  · obtain ⟨b, tail, rfl⟩ := List.exists_cons_of_ne_nil hroom
    rw [List.getLast?_cons_cons] at hlast
    exact Or.inr hlast

theorem leftover_of_plain (h : ∀ b ∈ tail, b ≠ 0) : Leftover tail := Or.inr fun b hb => h b (List.mem_of_getLast? hb)

theorem Refines.isText (h : Refines s e tail) : IsText e.text := by
  refine ⟨?_, h.plain⟩
  have hlength := h.holds.tail_length
  have htail : 0 < tail.length := List.length_pos_iff.mpr h.room
  rw [h.holds.position, ← List.length_append] at hlength
  rw [Editor.text]
  omega

theorem Refines.history_isText (h : Refines s e tail) : ∀ t ∈ e.history, IsText t := by
  intro t ht
  exact h.texts t (List.mem_filter.mp (mem_of_mem_recent ht)).1

theorem Refines.with_stat (h : Refines s e tail) (stat : InputStat) :
    Refines { s with stat := stat } { e with stat := stat } tail :=
  ⟨rfl, ⟨h.holds.line, h.holds.size, h.holds.position, h.holds.curpos⟩, h.room, h.leftover, h.plain,
    ⟨h.keeps.rows, h.keeps.count, h.keeps.entries⟩, h.index, h.index_le, h.executed, h.texts⟩

theorem Refines.edit (h : Refines s e tail) {s' : FinshShell} {before behind tail' : List Byte}
    (hholds : s'.Holds before behind tail') (hroom : tail' ≠ []) (hleftover : Leftover tail')
    (hplain : ∀ b ∈ before ++ behind, b ≠ 0)
    (hframe : s' = { s with line := s'.line, linePosition := s'.linePosition, lineCurpos := s'.lineCurpos }) :
    Refines s' { e with before := before, behind := behind } tail' := by
  refine ⟨?_, hholds, hroom, hleftover, hplain, ?_, ?_, h.index_le, ?_, h.texts⟩
  · rw [hframe]
    exact h.stat
  · rw [hframe]
    exact ⟨h.keeps.rows, h.keeps.count, h.keeps.entries⟩
  · rw [hframe]
    exact h.index
  · rw [hframe]
    exact h.executed

theorem left_frame (s : FinshShell) :
    s.left = { s with line := s.left.line, linePosition := s.left.linePosition, lineCurpos := s.left.lineCurpos } := by
  rw [FinshShell.left]
  split <;> rfl

theorem right_frame (s : FinshShell) :
    s.right = { s with line := s.right.line, linePosition := s.right.linePosition, lineCurpos := s.right.lineCurpos } := by
  rw [FinshShell.right]
  split <;> rfl

theorem backspace_frame (s : FinshShell) : s.backspace =
    { s with line := s.backspace.line, linePosition := s.backspace.linePosition, lineCurpos := s.backspace.lineCurpos } := by
  rw [FinshShell.backspace]
  split <;> rfl

theorem refines_left (h : Refines s e tail) : Refines s.left (e.apply .left) tail := by
  rw [Editor.apply]
  rcases List.eq_nil_or_concat e.before with hnil | ⟨init, c, hc⟩
  · have hholds := h.holds
    rw [hnil] at hholds
    have hleft := h.edit hholds h.room h.leftover (by rw [← hnil]; exact h.plain) rfl
    rw [hholds.left_nil, hnil]
    exact hleft
  · rw [List.concat_eq_append] at hc
    have hholds := h.holds
    have hplain := h.plain
    rw [hc] at hholds
    rw [Editor.text, hc, List.append_assoc] at hplain
    have hleft := h.edit hholds.left h.room h.leftover hplain (left_frame s)
    rw [hc, List.dropLast_concat, List.getLast?_concat]
    exact hleft

theorem refines_right (h : Refines s e tail) : Refines s.right (e.apply .right) tail := by
  rw [Editor.apply]
  cases hbehind : e.behind with
  | nil =>
    have hholds := h.holds
    rw [hbehind] at hholds
    have hright := h.edit hholds h.room h.leftover (by rw [← hbehind]; exact h.plain) rfl
    rw [hholds.right_nil]
    exact (congrArg (fun b => Refines s { e with before := b, behind := [] } tail) (List.append_nil e.before)).mpr hright
  | cons c behind =>
    have hholds := h.holds
    have hplain := h.plain
    rw [hbehind] at hholds
    rw [Editor.text, hbehind, ← List.singleton_append, ← List.append_assoc] at hplain
    exact h.edit hholds.right h.room h.leftover hplain (right_frame s)

theorem refines_delete (h : Refines s e tail) :
    ∃ tail', Refines s.backspace (e.apply .delete) tail' ∧ (Blank tail → Blank tail') := by
  rw [Editor.apply]
  rcases List.eq_nil_or_concat e.before with hnil | ⟨init, c, hc⟩
  · have hholds := h.holds
    rw [hnil] at hholds
    have hback := h.edit hholds h.room h.leftover (by rw [← hnil]; exact h.plain) rfl
    rw [hholds.backspace_nil, hnil]
    exact ⟨tail, hback, id⟩
  · rw [List.concat_eq_append] at hc
    have hholds := h.holds
    have hplain := h.plain
    rw [hc] at hholds
    rw [Editor.text, hc, List.append_assoc] at hplain
    have hrest : ∀ b ∈ init ++ e.behind, b ≠ 0 := by
      intro b hb
      refine hplain b ?_
      rcases List.mem_append.mp hb with hinit | hbehind
      · exact List.mem_append_left _ hinit
      · exact List.mem_append_right init (List.mem_append_right [c] hbehind)
    have hback := h.edit hholds.backspace (List.cons_ne_nil 0 tail) (h.leftover.cons h.room) hrest (backspace_frame s)
    rw [hc, List.dropLast_concat]
    exact ⟨0 :: tail, hback, Blank.cons⟩

theorem refines_insert (h : Refines s e tail) (hch : ch ≠ 0) : ∃ tail', Refines (s.insert ch) (e.insert ch) tail' ∧
    (Blank tail → (Blank tail' ↔ s.linePosition + 1 ≠ finshCmdSize)) := by
  obtain ⟨c, rest, rfl⟩ := List.exists_cons_of_ne_nil h.room
  have hplain : ∀ b ∈ e.before ++ [ch] ++ e.behind, b ≠ 0 := by
    intro b hb
    rw [List.append_assoc] at hb
    rcases List.mem_append.mp hb with hbefore | hrest
    · exact h.plain b (List.mem_append_left _ hbefore)
    · rcases List.mem_append.mp hrest with hnew | hbehind
      · rw [List.mem_singleton.mp hnew]
        exact hch
      · exact h.plain b (List.mem_append_right e.before hbehind)
  have hlength := h.holds.tail_length
  rw [h.holds.position, ← List.length_append, List.length_cons] at hlength
  have hfull : e.text.length + 1 < finshCmdSize ↔ rest ≠ [] := by
    rw [← List.length_pos_iff, Editor.text]
    omega
  have hposition : s.linePosition + 1 ≠ finshCmdSize ↔ rest ≠ [] := by
    rw [← List.length_pos_iff, h.holds.position, ← List.length_append]
    omega
  rw [hposition]
  rw [Editor.insert]
  by_cases hrest : rest = []
  · subst hrest
    rw [if_neg (fun hlt => hfull.mp hlt rfl)]
    have hleft : ∀ b ∈ e.before ++ ch :: e.behind, b ≠ 0 := by
      rw [← List.singleton_append, ← List.append_assoc]
      exact hplain
    refine ⟨_, h.edit (h.holds.insert_full ch) (List.append_ne_nil_of_right_ne_nil _ (List.cons_ne_nil ch _))
      (leftover_of_plain hleft) (fun b hb => absurd hb List.not_mem_nil) (by rw [h.holds.insert_eq, if_pos rfl]), ?_⟩
    intro _
    refine iff_of_false ?_ (not_not.mpr rfl)
    intro hblank
    exact hch (hblank ch (List.mem_append_right e.before List.mem_cons_self))
  · rw [if_pos (hfull.mpr hrest)]
    exact ⟨rest, h.edit (h.holds.insert hrest ch) hrest (h.leftover.of_cons hrest) hplain
      (by rw [h.holds.insert_eq, if_neg hrest]), fun hblank => iff_of_true hblank.of_cons hrest⟩

/-! ### The history -/

theorem refines_recall (h : Refines s e tail) {i : ℕ} (hi : i < e.history.length) :
    ∃ tail', Refines (s.recall i) (e.fetch i) tail' ∧ Blank tail' := by
  have htext : IsText e.history[i] := h.history_isText _ (List.getElem_mem hi)
  have hget : e.history.getD i [] = e.history[i] := by
    rw [List.getD_eq_getElem?_getD, List.getElem?_eq_getElem hi]
    rfl
  have hroom : zeros (finshCmdSize - e.history[i].length) ≠ [] := by
    rw [← List.length_pos_iff, zeros, List.length_replicate]
    exact Nat.sub_pos_of_lt htext.short
  rw [Editor.fetch, hget]
  refine ⟨_, ⟨h.stat, FinshShell.Holds.recall (h.keeps.row hi) htext, hroom, Or.inl (blank_zeros _), ?_,
    ⟨h.keeps.rows, h.keeps.count, h.keeps.entries⟩, rfl, hi.le, h.executed, h.texts⟩, blank_zeros _⟩
  intro b hb
  rw [Editor.text, List.append_nil] at hb
  exact htext.plain b hb

theorem upRow_eq (h : Refines s e tail) : s.upRow = if 0 < e.index then some (e.index - 1) else none := by
  rw [FinshShell.upRow, h.index]

theorem downRow_eq (h : Refines s e tail) : s.downRow = if e.index + 1 < e.history.length then some (e.index + 1)
    else if e.history ≠ [] then some (e.history.length - 1) else none := by
  have hnext : (e.index : ℤ) < (e.history.length : ℤ) - 1 ↔ e.index + 1 < e.history.length := by omega
  have hempty : e.history.length ≠ 0 ↔ e.history ≠ [] := not_congr List.length_eq_zero_iff
  rw [FinshShell.downRow, h.index, h.keeps.count]
  simp only [hnext, hempty]

theorem refines_older (h : Refines s e tail) :
    ∃ tail', Refines (s.act .older) (e.apply .older) tail' ∧ (Blank tail → Blank tail') := by
  have hle := h.index_le
  rw [FinshShell.act, Editor.apply, upRow_eq h]
  split
  · obtain ⟨tail', hrecall, hblank⟩ := refines_recall h (i := e.index - 1) (by omega)
    exact ⟨tail', hrecall, fun _ => hblank⟩
  · exact ⟨tail, h, id⟩

theorem refines_newer (h : Refines s e tail) :
    ∃ tail', Refines (s.act .newer) (e.apply .newer) tail' ∧ (Blank tail → Blank tail') := by
  rw [FinshShell.act, Editor.apply, downRow_eq h]
  split
  · rename_i hlt
    obtain ⟨tail', hrecall, hblank⟩ := refines_recall h hlt
    exact ⟨tail', hrecall, fun _ => hblank⟩
  · split
    · rename_i hne
      have hpos := List.length_pos_iff.mpr hne
      obtain ⟨tail', hrecall, hblank⟩ := refines_recall h (i := e.history.length - 1) (by omega)
      exact ⟨tail', hrecall, fun _ => hblank⟩
    · exact ⟨tail, h, id⟩

theorem getLast?_filled {text : List Byte} (h : IsText text) : (filled text).getLast? = some 0 := by
  have hzeros : zeros (finshCmdSize - text.length) = zeros (finshCmdSize - text.length - 1) ++ [0] := by
    rw [zeros, zeros, ← List.replicate_succ', Nat.sub_add_cancel (Nat.sub_pos_of_lt h.short)]
  rw [filled, hzeros, ← List.append_assoc, List.getLast?_concat]

theorem blank_iff (tail : List Byte) : Blank tail ↔ tail = zeros tail.length := List.eq_replicate_length.symm

theorem clean_iff (h : Refines s e tail) : s.Clean ↔ Blank tail := by
  have hlength := h.holds.tail_length
  have hzeros : finshCmdSize - s.linePosition = tail.length := by omega
  rw [FinshShell.Clean, FinshShell.entry, h.holds.take_position, h.holds.line, hzeros, blank_iff]
  exact ⟨fun he => List.append_cancel_left he, fun he => congrArg _ he⟩

theorem not_same (h : Refines s e tail) (hclean : ¬s.Clean) : ¬s.Same := by
  have hlast : ∀ b ∈ tail.getLast?, b ≠ 0 := h.leftover.resolve_left (mt (clean_iff h).mpr hclean)
  intro hsame
  obtain ⟨hne, hrow⟩ := hsame
  have hlt : s.historyCount - 1 < e.history.length := by
    rw [← h.keeps.count]
    omega
  rw [h.keeps.row hlt, h.holds.line] at hrow
  have hzero := getLast?_filled (h.history_isText _ (List.getElem_mem hlt))
  rw [hrow, List.getLast?_append_of_ne_nil _ h.room] at hzero
  exact hlast 0 hzero rfl

theorem same_iff (h : Refines s e tail) (hclean : s.Repeats → s.Clean) : s.Same ↔ s.Repeats := by
  by_cases hc : s.Clean
  · have hline : s.line = s.entry := hc
    rw [FinshShell.Same, hline, FinshShell.Repeats]
  · exact iff_of_false (not_same h hc) fun hrep => hc (hclean hrep)

theorem history_run (e : Editor) : e.run.history = pushText e.history e.text := by
  have hcommands : e.run.commands = e.commands ++ [e.text].filter (· ≠ []) := List.filter_append e.executed [e.text]
  rw [Editor.history, hcommands, pushText]
  by_cases htext : e.text = []
  · rw [if_pos htext, htext]
    exact congrArg (recent finshHistoryLines) (List.append_nil e.commands)
  · have hfilter : [e.text].filter (· ≠ []) = [e.text] := List.filter_cons_of_pos (decide_eq_true htext)
    rw [if_neg htext, hfilter, recent_concat (by decide)]
    rfl

theorem refines_run (h : Refines s e tail) (hclean : s.Repeats → s.Clean) :
    ∃ tail', Refines s.enter e.run tail' ∧ Blank tail' := by
  have hpush := h.keeps.push_history h.history_isText h.holds h.isText (same_iff h hclean)
  rw [← Editor.text, ← history_run] at hpush
  obtain ⟨hstat, hline, hposition, hexecuted, hcurrent⟩ := shellPushHistory_frame s
  have hroom : zeros finshCmdSize ≠ [] := by decide
  refine ⟨zeros finshCmdSize, ⟨?_, ⟨rfl, rfl, rfl, rfl⟩, hroom, Or.inl (blank_zeros _),
    fun b hb => absurd hb List.not_mem_nil, ⟨hpush.rows, hpush.count, hpush.entries⟩, ?_, Nat.le_refl _, ?_, ?_⟩,
    blank_zeros _⟩
  · exact hstat.trans h.stat
  · exact hcurrent.trans hpush.count
  · rw [FinshShell.enter, FinshShell.texts]
    simp only
    rw [hexecuted, hline, hposition, List.map_append, ← FinshShell.texts, h.executed, List.map_singleton,
      h.holds.take_position]
    rfl
  · intro t ht
    rcases List.mem_append.mp ht with hold | hnew
    · exact h.texts t hold
    · rw [List.mem_singleton.mp hnew]
      exact h.isText

theorem refines_act (h : Refines s e tail) {edit : Edit} (hinsert : ∀ ch, edit = .insert ch → ch ≠ 0)
    (hclean : edit = .run → s.Repeats → s.Clean) : ∃ tail', Refines (s.act edit) (e.apply edit) tail' ∧
      (Blank tail → (Blank tail' ↔ ∀ ch, edit = .insert ch → s.linePosition + 1 ≠ finshCmdSize)) := by
  cases edit with
  | nothing => exact ⟨tail, h, fun hblank => iff_of_true hblank fun ch hch => Edit.noConfusion hch⟩
  | insert ch =>
    obtain ⟨tail', hact, hblank⟩ := refines_insert h (hinsert ch rfl)
    exact ⟨tail', hact, fun ht => (hblank ht).trans ⟨fun hne _ _ => hne, fun hall => hall ch rfl⟩⟩
  | delete =>
    obtain ⟨tail', hact, hblank⟩ := refines_delete h
    exact ⟨tail', hact, fun ht => iff_of_true (hblank ht) fun ch hch => Edit.noConfusion hch⟩
  | left => exact ⟨tail, refines_left h, fun hblank => iff_of_true hblank fun ch hch => Edit.noConfusion hch⟩
  | right => exact ⟨tail, refines_right h, fun hblank => iff_of_true hblank fun ch hch => Edit.noConfusion hch⟩
  | older =>
    obtain ⟨tail', hact, hblank⟩ := refines_older h
    exact ⟨tail', hact, fun ht => iff_of_true (hblank ht) fun ch hch => Edit.noConfusion hch⟩
  | newer =>
    obtain ⟨tail', hact, hblank⟩ := refines_newer h
    exact ⟨tail', hact, fun ht => iff_of_true (hblank ht) fun ch hch => Edit.noConfusion hch⟩
  | run =>
    obtain ⟨tail', hact, hblank⟩ := refines_run h (hclean rfl)
    exact ⟨tail', hact, fun _ => iff_of_true hblank fun ch hch => Edit.noConfusion hch⟩

theorem decode_insert {stat : InputStat} {c : Byte} (h : (decode stat ch).2 = .insert c) : c ≠ 0 := by
  have hplain : ∀ c, plainEdit ch = .insert c → c ≠ 0 := by
    intro c hc
    rw [plainEdit] at hc
    split_ifs at hc with hnull
    obtain rfl := Edit.insert.inj hc
    exact fun hzero => hnull (Or.inl hzero)
  rw [decode.eq_def] at h
  by_cases hesc : ch = 0x1b
  · rw [if_pos hesc] at h
    cases h
  · rw [if_neg hesc] at h
    cases stat with
    | waitNormal => exact hplain c h
    | waitSpecKey =>
      simp only at h
      split at h
      · cases h
      · exact hplain c h
    | waitFuncKey =>
      simp only at h
      split_ifs at h
      exact hplain c h

end RtThread.Shell
