import Mathlib
import RtThread.Shell.Strings

/-!
# The shell: the keys of a command line (`shell.c:423-462`, `shell.c:507-725`)

The shell is built with `FINSH_USING_MSH_ONLY`.
-/

namespace RtThread.Shell

def finshCmdSize : ℕ := 80

def finshHistoryLines : ℕ := 5

def tab : Byte := 0x09

/-- `enum input_stat`. -/
inductive InputStat where
  | waitNormal
  | waitSpecKey
  | waitFuncKey

/-- `struct finsh_shell`, and the calls of `msh_exec` with the line and the length. -/
structure FinshShell where
  stat : InputStat
  currentHistory : ℕ
  historyCount : ℕ
  cmdHistory : List (List Byte)
  line : List Byte
  linePosition : ℕ
  lineCurpos : ℕ
  executed : List (List Byte × ℕ)

/-- `rt_calloc`. -/
def finshSystemInit : FinshShell :=
  ⟨.waitNormal, 0, 0, List.replicate finshHistoryLines (zeros finshCmdSize), zeros finshCmdSize, 0, 0, []⟩

/-- `rt_memmove(&line[dst], &line[src], n)`. -/
def memmove (line : List Byte) (dst src n : ℕ) : List Byte :=
  line.take dst ++ (line.drop src).take n ++ line.drop (dst + n)

/-! ### The history -/

def FinshShell.row (s : FinshShell) (i : ℕ) : List Byte := s.cmdHistory.getD i []

/-- The row for the line: `memset`, and `memcpy` of `line_position` characters. -/
def FinshShell.entry (s : FinshShell) : List Byte :=
  s.line.take s.linePosition ++ zeros (finshCmdSize - s.linePosition)

/-- The rows are moved to the front. -/
def moveHistory (rows : List (List Byte)) : List (List Byte) :=
  (List.range (finshHistoryLines - 1)).foldl (fun rows i => rows.set i (rows.getD (i + 1) [])) rows

/-- `shell_push_history`. -/
def shellPushHistory (s : FinshShell) : FinshShell :=
  let s :=
    if s.linePosition ≠ 0 then
      if finshHistoryLines ≤ s.historyCount then
        if s.row (finshHistoryLines - 1) ≠ s.line then
          { s with
            cmdHistory := (moveHistory s.cmdHistory).set (finshHistoryLines - 1) s.entry
            historyCount := finshHistoryLines }
        else s
      else if s.historyCount = 0 ∨ s.row (s.historyCount - 1) ≠ s.line then
        { s with
          cmdHistory := s.cmdHistory.set s.historyCount s.entry
          historyCount := s.historyCount + 1 }
      else s
    else s
  { s with currentHistory := s.historyCount }

/-- The row that the up key recalls. -/
def FinshShell.upRow (s : FinshShell) : Option ℕ := if 0 < s.currentHistory then some (s.currentHistory - 1) else none

/-- The row that the down key recalls. -/
def FinshShell.downRow (s : FinshShell) : Option ℕ :=
  if (s.currentHistory : ℤ) < s.historyCount - 1 then some (s.currentHistory + 1)
  else if s.historyCount ≠ 0 then some (s.historyCount - 1)
  else none

/-- A row is copied to the line. -/
def FinshShell.recall (s : FinshShell) (i : ℕ) : FinshShell :=
  { s with
    currentHistory := i
    line := s.row i
    linePosition := rtStrlen (s.row i)
    lineCurpos := rtStrlen (s.row i) }

/-! ### The keys -/

def FinshShell.left (s : FinshShell) : FinshShell :=
  if s.lineCurpos ≠ 0 then { s with lineCurpos := s.lineCurpos - 1 } else s

def FinshShell.right (s : FinshShell) : FinshShell :=
  if s.lineCurpos < s.linePosition then { s with lineCurpos := s.lineCurpos + 1 } else s

def FinshShell.backspace (s : FinshShell) : FinshShell :=
  if s.lineCurpos = 0 then s
  else
    let position := s.linePosition - 1
    let curpos := s.lineCurpos - 1
    let line := if curpos < position then memmove s.line curpos (curpos + 1) (position - curpos) else s.line
    { s with line := line.set position 0, linePosition := position, lineCurpos := curpos }

/-- The end of a line. -/
def FinshShell.enter (s : FinshShell) : FinshShell :=
  let s := shellPushHistory s
  { s with
    executed := s.executed ++ [(s.line, s.linePosition)]
    line := zeros finshCmdSize
    linePosition := 0
    lineCurpos := 0 }

/-- A normal character. -/
def FinshShell.insert (s : FinshShell) (ch : Byte) : FinshShell :=
  let position := if finshCmdSize ≤ s.linePosition then 0 else s.linePosition
  let line :=
    if s.lineCurpos < position then
      (memmove s.line (s.lineCurpos + 1) s.lineCurpos (position - s.lineCurpos)).set s.lineCurpos ch
    else s.line.set position ch
  if finshCmdSize ≤ position + 1 then { s with line := line, linePosition := 0, lineCurpos := 0 }
  else { s with line := line, linePosition := position + 1, lineCurpos := s.lineCurpos + 1 }

/-- What follows the control keys in the loop. -/
def FinshShell.plainKey (s : FinshShell) (ch : Byte) : FinshShell :=
  if ch = 0 ∨ ch = 0xff then s
  else if ch = 0x7f ∨ ch = 0x08 then s.backspace
  else if ch = 0x0d ∨ ch = 0x0a then s.enter
  else s.insert ch

/-- The loop of `finsh_thread_entry`, for one character. -/
def FinshShell.key (s : FinshShell) (ch : Byte) : FinshShell :=
  if ch = 0x1b then { s with stat := .waitSpecKey }
  else
    match s.stat with
    | .waitNormal => s.plainKey ch
    | .waitSpecKey =>
      if ch = 0x5b then { s with stat := .waitFuncKey } else { s with stat := .waitNormal }.plainKey ch
    | .waitFuncKey =>
      let s := { s with stat := .waitNormal }
      if ch = 0x41 then s.upRow.elim s s.recall
      else if ch = 0x42 then s.downRow.elim s s.recall
      else if ch = 0x44 then s.left
      else if ch = 0x43 then s.right
      else s.plainKey ch

end RtThread.Shell
