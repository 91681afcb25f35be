import RtThread.Lib.CommonPrefix
import RtThread.Shell.LineBuffer

/-!
# The shell: completion of a line (`msh.c:400-611`, `shell.c:604-621`)

The Tab key completes the last word of the line to what the names that begin with it have in common: the names of a
directory when a blank is in front of the word, the names of the commands otherwise.
-/

namespace RtThread.Shell

open RtThread.Lib.CommonPrefix

def space : Byte := 0x20

def slash : Byte := 0x2f

/-- The string at an address of the line. -/
def cText (line : List Byte) : List Byte := line.takeWhile (· ≠ 0)

/-- The name that the loops over the commands and over the entries of a directory keep, and `min_length`. -/
abbrev Kept := Option (List Byte) × ℕ

def matchesName (pre name : List Byte) : Bool := rtStrncmp (rtStrlen pre) pre name = 0

/-- One pass of these loops, with the call of `str_common` on the name kept and the name at hand. -/
def keepName (common : List Byte → List Byte → ℕ) (pre : List Byte) (k : Kept) (name : List Byte) : Kept :=
  if matchesName pre name then
    let k := if k.2 = 0 then (some name, rtStrlen name) else k
    let length := common (k.1.getD []) name
    (k.1, if length < k.2 then length else k.2)
  else k

/-- What the completion of paths asks of the file system: `getcwd`, and `opendir` with the names that `readdir`
then gives. -/
structure Directories where
  cwd : List Byte
  opendir : List Byte → Option (List (List Byte))

/-- The length of `path` up to and with its last slash. -/
def dirLength (path : List Byte) : ℕ := path.length - (path.reverse.takeWhile (· ≠ slash)).length

/-- The parent path. -/
def parentPath (cwd path : List Byte) : List Byte :=
  (if path.headD 0 ≠ slash then (if cwd.getLast? = some slash then cwd else cwd ++ [slash]) else []) ++
    path.take (dirLength path)

/-- The last blank of the string that is not its first character. -/
def lastSpace (text : List Byte) : Option ℕ :=
  match text.tail.reverse.findIdx? (· = space) with
  | some i => some (text.length - 1 - i)
  | none => none

def cmdPrefix : List Byte := [0x5f, 0x5f, 0x63, 0x6d, 0x64, 0x5f]

/-- The names of the table behind `__cmd_`. -/
def commandNames (table : List (List Byte)) : List (List Byte) :=
  (table.filter (matchesName cmdPrefix)).map (List.drop cmdPrefix.length)

def Plain (t : List Byte) : Prop := ∀ b ∈ t, b ≠ 0

theorem cText_append {t rest : List Byte} (ht : Plain t) (hrest : rest.headD 0 = 0) : cText (t ++ rest) = t := by
  rw [cText, List.takeWhile_append_of_pos fun b hb => decide_eq_true (ht b hb)]
  cases rest with
  | nil => exact List.append_nil t
  | cons b rest =>
    rw [List.takeWhile_cons_of_neg (by simpa using hrest), List.append_nil]

theorem rtStrncmp_prefix {p rest name : List Byte} (hp : Plain p) (hname : Plain name) :
    rtStrncmp p.length (p ++ rest) name = 0 ↔ p <+: name := by
  induction p generalizing name with
  | nil => exact iff_of_true rfl List.nil_prefix
  | cons a p ih =>
    have ha : a ≠ 0 := hp a List.mem_cons_self
    cases name with
    | nil =>
      refine iff_of_false ?_ (by simp)
      show (if a - 0 ≠ 0 ∨ a = 0 then a - 0 else _) ≠ 0
      rw [if_pos (.inl (sub_ne_zero_of_ne ha))]
      exact sub_ne_zero_of_ne ha
    | cons b name =>
      rw [List.length_cons, List.cons_append, rtStrncmp_cons, List.cons_prefix_cons]
      by_cases hab : a = b
      · rw [if_pos ⟨hab, ha⟩, ih (fun c hc => hp c (List.mem_cons_of_mem a hc))
          fun c hc => hname c (List.mem_cons_of_mem b hc)]
        exact (and_iff_right hab).symm
      · rw [if_neg fun h => hab h.1]
        exact iff_of_false (sub_ne_zero_of_ne hab) fun h => hab h.1

theorem matchesName_iff {p rest name : List Byte} (hp : Plain p) (hrest : rest.headD 0 = 0) (hname : Plain name) :
    matchesName (p ++ rest) name = true ↔ p <+: name := by
  have hlength : rtStrlen (p ++ rest) = p.length := congrArg List.length (cText_append hp hrest)
  rw [matchesName, hlength, decide_eq_true_eq, rtStrncmp_prefix hp hname]

/-! ### The loops over the names -/

section Loop

variable {length : List Byte → List Byte → ℕ} {p rest : List Byte} {names : List (List Byte)}

/-- The names that begin with `p`. -/
def beginning (p : List Byte) (names : List (List Byte)) : List (List Byte) := names.filter fun name => p <+: name

theorem beginning_cons {name : List Byte} (h : p <+: name) :
    beginning p (name :: names) = name :: beginning p names := by
  rw [beginning, List.filter_cons, if_pos (decide_eq_true h)]
  rfl

theorem beginning_cons_of_not {name : List Byte} (h : ¬p <+: name) :
    beginning p (name :: names) = beginning p names := by
  rw [beginning, List.filter_cons, if_neg (by simpa using h)]
  rfl

theorem keepName_of_not {k : Kept} {name : List Byte} (hp : Plain p) (hrest : rest.headD 0 = 0) (hname : Plain name)
    (hnot : ¬p <+: name) : keepName length (p ++ rest) k name = k :=
  if_neg fun h => hnot ((matchesName_iff hp hrest hname).mp h)

theorem keepName_of_prefix {k : ℕ} {name kept : List Byte} (hp : Plain p) (hrest : rest.headD 0 = 0)
    (hname : Plain name) (hpre : p <+: name) (hk : k ≠ 0) :
    keepName length (p ++ rest) (some kept, k) name = (some kept, min k (length kept name)) := by
  rw [keepName, if_pos ((matchesName_iff hp hrest hname).mpr hpre)]
  simp only [if_neg hk, Option.getD_some, Prod.mk.injEq, true_and]
  split
  · rename_i h
    exact (min_eq_right h.le).symm
  · rename_i h
    exact (min_eq_left (Nat.not_lt.mp h)).symm

theorem keepName_first {name : List Byte} (hp : Plain p) (hrest : rest.headD 0 = 0) (hname : Plain name)
    (hpre : p <+: name) (hself : length name name = name.length) :
    keepName length (p ++ rest) (none, 0) name = (some name, name.length) := by
  have hlength : rtStrlen name = name.length := by
    have htext : cText (name ++ []) = name := cText_append hname rfl
    rw [List.append_nil] at htext
    exact congrArg List.length htext
  rw [keepName, if_pos ((matchesName_iff hp hrest hname).mpr hpre)]
  simp only [if_true, Option.getD_some, hself, hlength, lt_irrefl, if_false]

variable (hp : Plain p) (hrest : rest.headD 0 = 0) (hne : p ≠ [])
  (hcommon : ∀ a b, Plain a → Plain b → length a b = common a b) (hnames : ∀ name ∈ names, Plain name)
include hp hrest hne hcommon hnames

theorem foldl_keepName {kept : List Byte} (hkept : Plain kept) (hpre : p <+: kept) {k : ℕ} (hk : p.length ≤ k) :
    names.foldl (keepName length (p ++ rest)) (some kept, k) =
      (some kept, (beginning p names).foldl (fun n ys => min n (common kept ys)) k) := by
  induction names generalizing k with
  | nil => rfl
  | cons name names ih =>
    have hname := hnames name List.mem_cons_self
    have hrec := fun {k} hk => @ih (fun m hm => hnames m (List.mem_cons_of_mem name hm)) k hk
    have hpos : 0 < p.length := List.length_pos_iff.mpr hne
    by_cases hmatch : p <+: name
    · rw [List.foldl_cons, keepName_of_prefix hp hrest hname hmatch (by omega), hcommon kept name hkept hname,
        hrec (le_min hk (length_le_common hpre hmatch)), beginning_cons hmatch, List.foldl_cons]
    · rw [List.foldl_cons, keepName_of_not hp hrest hname hmatch, hrec hk, beginning_cons_of_not hmatch]

/-- The loop keeps the first name that begins with `p`, and the length that it shares with the others. -/
theorem loop_spec : names.foldl (keepName length (p ++ rest)) (none, 0) =
    match beginning p names with
    | [] => (none, 0)
    | name :: more => (some name, shared name more) := by
  induction names with
  | nil => rfl
  | cons name names ih =>
    have hname := hnames name List.mem_cons_self
    have hrest' := fun m hm => hnames m (List.mem_cons_of_mem name hm)
    by_cases hmatch : p <+: name
    · have hself : length name name = name.length := (hcommon name name hname hname).trans (common_self name)
      rw [List.foldl_cons, keepName_first hp hrest hname hmatch hself, beginning_cons hmatch]
      exact foldl_keepName hp hrest hne hcommon hrest' hname hmatch hmatch.length_le
    · rw [List.foldl_cons, keepName_of_not hp hrest hname hmatch, beginning_cons_of_not hmatch]
      exact ih hrest'

end Loop

/-! ### What a word is completed to -/

def completion (names : List (List Byte)) (word : List Byte) : List Byte :=
  match beginning word names with
  | [] => word
  | name :: more => name.take (shared name more)

variable {text word stem : List Byte} {names : List (List Byte)}

/-- The word that is completed, what is in front of it, and the names it is compared with: none for an empty word,
for which all names are listed. -/
structure Request where
  stem : List Byte
  word : List Byte
  names : List (List Byte)

def Request.completed (r : Request) : List Byte := r.stem ++ completion r.names r.word

def pathRequest (dirs : Directories) (text : List Byte) (start : ℕ) : Request :=
  let path := text.drop start
  let word := path.drop (dirLength path)
  ⟨text.take (start + dirLength path), word,
    if word = [] then [] else (dirs.opendir (parentPath dirs.cwd path)).getD []⟩

def request (dirs : Directories) (table : List (List Byte)) (text : List Byte) : Request :=
  match lastSpace text with
  | some i => pathRequest dirs text (i + 1)
  | none => ⟨[], text, if text = [] then [] else commandNames table⟩

variable {dirs : Directories} {table : List (List Byte)} {s : FinshShell}

/-- `ls` and `list_thread` and `list_timer` are commands, and the directory holds two logs. -/
def sampleTable : List (List Byte) :=
  [cmdPrefix ++ [0x6c, 0x73], cmdPrefix ++ [0x6c, 0x69, 0x73, 0x74, 0x5f, 0x74, 0x68], [0x6c, 0x69],
   cmdPrefix ++ [0x6c, 0x69, 0x73, 0x74, 0x5f, 0x74, 0x69]]

end RtThread.Shell
