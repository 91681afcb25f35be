import RtThread.Dfs.Ramfs

/-!
# What a file system of one directory is

Files are strings of bytes with an inode each, the directory gives names to inodes, and an open file has a position.
`grant` is what the memory has to give: a new inode, or nothing when there is no room left.
-/

namespace RtThread.Dfs.Ramfs

open RtThread.Lib.Flags RtThread.Lib.Ring RtThread.Memory.MemHeap

structure Handle where
  path : Path
  inode : ℕ
  pos : ℕ

structure Files where
  root : ℕ
  maxfd : ℕ
  entries : List (Path × ℕ)
  content : ℕ → Option (List (BitVec 8))
  handle : ℕ → Option Handle

namespace Files

variable (x : Files)

def find (path : Path) : Option ℕ :=
  if strip path = [] then some x.root else (x.entries.find? fun e => e.1 == strip path).map Prod.snd

def text (p : ℕ) : List (BitVec 8) := (x.content p).getD []

def setContent (p : ℕ) (t : Option (List (BitVec 8))) : Files := { x with content := Function.update x.content p t }

def setHandle (fd : ℕ) (h : Option Handle) : Files := { x with handle := Function.update x.handle fd h }

def attach (fd : ℕ) (path : Path) (flags : BitVec 32) (p : ℕ) : Files :=
  x.setHandle fd (some ⟨path, p, if has flags oAppend = true then (x.text p).length else 0⟩)

def create (path : Path) (p : ℕ) : Files := { x.setContent p (some []) with entries := (strip path, p) :: x.entries }

def opensDirectory (fd : ℕ) (path : Path) (flags : BitVec 32) : Result × Files :=
  if has flags oCreat = true then (.error .enospc, x)
  else
    match x.find path with
    | none => (.error .enoent, x)
    | some p => (.done, x.attach fd path flags p)

def opensFile (grant : Option ℕ) (fd : ℕ) (path : Path) (flags : BitVec 32) : Result × Files :=
  match x.find path with
  | some p =>
    if p = x.root then (.error .enoent, x)
    else (.done, (if has flags oTrunc = true then x.setContent p (some []) else x).attach fd path flags p)
  | none =>
    if has flags oCreat = true ∨ has flags oWronly = true then
      match grant with
      | none => (.error .enomem, x)
      | some p => (.done, (x.create path p).attach fd path flags p)
    else (.error .enoent, x)

/-- The target of a seek is an offset within the file. -/
def seek (fd : ℕ) (h : Handle) (target : ℤ) : Result × Files :=
  if target < 0 then (.error .einval, x)
  else if (x.text h.inode).length < target then (.error .eio, x)
  else (.count target.toNat, x.setHandle fd (some { h with pos := target.toNat }))

def isOpen (path : Path) : Prop := ∃ fd < x.maxfd, ∃ h, x.handle fd = some h ∧ h.path = path

instance (path : Path) : Decidable (x.isOpen path) :=
  decidable_of_iff ((List.range x.maxfd).any fun i => (x.handle i).any fun h => decide (h.path = path)) (by
    simp [isOpen, Option.any_eq_true])

/-- What a call returns, and what it leaves; a call for a descriptor that is not open does nothing. -/
def apply (grant : Option ℕ) : Act → Result × Files
  | .opens fd path flags =>
    if has flags oDirectory = true then x.opensDirectory fd path flags else x.opensFile grant fd path flags
  | .close fd => (.done, x.setHandle fd none)
  | .read fd len =>
    match x.handle fd with
    | none => (.data [], x)
    | some h =>
      let bytes := ((x.text h.inode).drop h.pos).take len
      (.data bytes, x.setHandle fd (some { h with pos := h.pos + bytes.length }))
  | .write fd buf =>
    match x.handle fd with
    | none => (.count 0, x)
    | some h =>
      if (x.text h.inode).length < h.pos + buf.length ∧ grant = none then (.count 0, x)
      else (.count buf.length, (x.setContent h.inode (some (splice (x.text h.inode) h.pos buf))).setHandle fd
        (some { h with pos := h.pos + buf.length }))
  | .lseek fd offset whence =>
    match x.handle fd with
    | none => (.error .einval, x)
    | some h =>
      match whence with
      | .set => x.seek fd h offset
      | .cur => x.seek fd h (offset + h.pos)
      | .stop => x.seek fd h (offset + (x.text h.inode).length)
  | .getdents fd nbytes =>
    match x.handle fd with
    | none => (.error .einval, x)
    | some h =>
      if h.inode ≠ x.root ∨ nbytes / sizeofDirent = 0 then (.error .einval, x)
      else
        let names := ((x.entries.map Prod.fst).drop h.pos).take (nbytes / sizeofDirent)
        (.names names, x.setHandle fd (some { h with pos := h.pos + names.length }))
  | .unlink path =>
    if x.isOpen path then (.error .ebusy, x)
    else
      match x.find path with
      | none => (.error .enoent, x)
      | some p => (.done, { x.setContent p none with entries := x.entries.filter fun e => e.2 != p })
  | .rename old new =>
    match x.find new, x.find old with
    | some _, _ => (.error .eexist, x)
    | none, none => (.error .enoent, x)
    | none, some p =>
      (.done, { x with entries := x.entries.map fun e => if e.2 = p then ((new : Path), p) else e })
  | .stat path =>
    match x.find path with
    | none => (.error .enoent, x)
    | some p => (.count (x.text p).length, x)

end Files

/-! ### What the nodes and descriptors stand for -/

def DfsRamfs.entries (fs : DfsRamfs) : List (Path × ℕ) := fs.list.map fun p => (nameOf (fs.dirent p).name, p)

def DfsRamfs.content (fs : DfsRamfs) (p : ℕ) : Option (List (BitVec 8)) :=
  if p ∈ fs.list then some (fs.bytes p) else none

def DfsFd.handle (d : DfsFd) : Handle := ⟨d.path, d.data, d.pos⟩

def Sys.files (s : Sys) : Files :=
  ⟨s.fs.root, s.maxfd, s.fs.entries, s.fs.content, fun fd => (s.fds fd).map DfsFd.handle⟩

/-! ### What the callers keep to -/

/-- A path as `dfs_subdir` gives it: one separator, and the rest does not begin with another. -/
def Subpath (path : Path) : Prop := ∃ name, path = '/' :: name ∧ name.head? ≠ some '/' ∧ '\x00' ∉ name

instance : DecidablePred Subpath
  | [] => isFalse fun ⟨_, h, _⟩ => by cases h
  | c :: name => decidable_of_iff (c = '/' ∧ name.head? ≠ some '/' ∧ '\x00' ∉ name) (by simp [Subpath])

/-- The file at the path is not open. -/
def Sys.Closed (s : Sys) (path : Path) : Prop :=
  ∀ fd < s.maxfd, ∀ d ∈ s.fds fd, d.data ≠ s.fs.root → s.files.find path ≠ some d.data

/-- No file is opened twice at a time, names fit into their arrays with the zero behind them, no call reads or writes
the directory as if it were a file, and no size wraps. -/
def Allowed (k : ℕ) (s : Sys) : Act → Prop
  | .opens fd path _ =>
    fd < s.maxfd ∧ s.fds fd = none ∧ Subpath path ∧ (strip path).length < ramfsNameMax ∧ s.Closed path
  | .close fd => (s.fds fd).isSome = true
  | .read fd _ => ∃ d ∈ s.fds fd, d.data ≠ s.fs.root
  | .write fd buf => ∃ d ∈ s.fds fd, d.data ≠ s.fs.root ∧ d.pos + buf.length + 2 ^ k + memheapMinialloc < 2 ^ 32
  | .lseek fd offset whence => ∃ d ∈ s.fds fd, seekTarget d offset whence < 2 ^ 31
  | .getdents fd _ => (s.fds fd).isSome = true
  | .unlink path => Subpath path ∧ strip path ≠ []
  | .rename old new => Subpath old ∧ strip old ≠ [] ∧ Subpath new ∧ new.length < ramfsNameMax
  | .stat path => Subpath path ∧ strip path ≠ []

instance (s : Sys) (path : Path) : Decidable (s.Closed path) :=
  inferInstanceAs (Decidable (∀ fd < s.maxfd, ∀ d ∈ s.fds fd, d.data ≠ s.fs.root → s.files.find path ≠ some d.data))

instance (k : ℕ) (s : Sys) : (a : Act) → Decidable (Allowed k s a)
  | .opens _ _ _ => inferInstanceAs (Decidable (_ ∧ _ = none ∧ _ ∧ _ ∧ _))
  | .close _ => inferInstanceAs (Decidable (_ = true))
  | .read _ _ => inferInstanceAs (Decidable (∃ d ∈ _, _))
  | .write _ _ => inferInstanceAs (Decidable (∃ d ∈ _, _))
  | .lseek _ _ _ => inferInstanceAs (Decidable (∃ d ∈ _, _))
  | .getdents _ _ => inferInstanceAs (Decidable (_ = true))
  | .unlink _ => inferInstanceAs (Decidable (_ ∧ _))
  | .rename _ _ => inferInstanceAs (Decidable (_ ∧ _ ∧ _ ∧ _))
  | .stat _ => inferInstanceAs (Decidable (_ ∧ _))

end RtThread.Dfs.Ramfs
