import RtThread.Lib.Flags
import RtThread.Lib.Ring
import RtThread.Memory.MemHeapStore

/-!
# The RAM file system (`dfs_ramfs.c`, and `dfs_file.c` and `dfs_posix.c` above it)

The nodes and the data of the files lie in one memory heap. A node is seen through its fields, by its address; the
bytes of the data are those of the memory. The paths are those behind the mount point, as `dfs_subdir` gives them.
A function without a result stands for a failed assertion, or for a name that is read behind its array.
-/

namespace RtThread.Dfs.Ramfs

open RtThread.Lib.Bytes RtThread.Lib.Flags RtThread.Lib.Ring RtThread.Lib.Word RtThread.Memory.MemHeap

abbrev Path := List Char

def ramfsNameMax : ℕ := 32

/-- `sizeof(struct ramfs_dirent)` with pointers of 32 bits. -/
def sizeofRamfsDirent : ℕ := 52

/-- `sizeof(struct dirent)` (`dfs.h:76-82`), where `DFS_PATH_MAX` is 256. -/
def sizeofDirent : ℕ := 260

/-! The flags of `libc_fcntl.h:50-64`. -/

def oWronly : BitVec 32 := 0x1
def oCreat : BitVec 32 := 0x40
def oTrunc : BitVec 32 := 0x200
def oAppend : BitVec 32 := 0x400
def oDirectory : BitVec 32 := 0x10000

inductive Errno where
  | enoent
  | eio
  | enomem
  | ebusy
  | eexist
  | einval
  | enospc
  deriving DecidableEq, Repr

/-- `struct ramfs_dirent`; `name` is the array. -/
structure RamfsDirent where
  name : List Char
  data : ℕ
  size : ℕ

/-- `struct dfs_ramfs`: the heap with the memory, the address of `root`, the nodes on its list, and all nodes by
their addresses. -/
structure DfsRamfs where
  pool : Pool
  root : ℕ
  list : List ℕ
  dirent : ℕ → RamfsDirent

/-- `struct dfs_fd` while the file is open. -/
structure DfsFd where
  path : Path
  flags : BitVec 32
  data : ℕ
  size : ℕ
  pos : ℕ

namespace DfsRamfs

def setDirent (fs : DfsRamfs) (p : ℕ) (d : RamfsDirent) : DfsRamfs :=
  { fs with dirent := Function.update fs.dirent p d }

def withPool (fs : DfsRamfs) (pool : Pool) : DfsRamfs := { fs with pool := pool }

/-- `rt_list_insert_after` behind the root. -/
def link (fs : DfsRamfs) (p : ℕ) : DfsRamfs := { fs with list := p :: fs.list }

/-- `rt_list_remove`. -/
def unlink (fs : DfsRamfs) (p : ℕ) : DfsRamfs := { fs with list := fs.list.erase p }

/-- The bytes of the file at `p`. -/
def bytes (fs : DfsRamfs) (p : ℕ) : List (BitVec 8) := slice fs.pool.mem (fs.dirent p).data (fs.dirent p).size

/-- `memcpy` into the memory of the heap. -/
def writeAt (fs : DfsRamfs) (a : ℕ) (buf : List (BitVec 8)) : DfsRamfs :=
  fs.withPool { fs.pool with mem := copy fs.pool.mem a buf }

end DfsRamfs

/-- A path without its leading separators. -/
def strip (path : Path) : Path := path.dropWhile (· == '/')

/-- Whether `strcmp` of a name in its array with a string gives 0; no result when it reads behind the array. -/
def strcmpName : List Char → Path → Option Bool
  | [], _ => none
  | c :: _, [] => some (c == '\x00')
  | c :: cs, d :: ds => if c = d then strcmpName cs ds else some false

/-- `strncpy(name, s, RAMFS_NAME_MAX)`. -/
def strncpyName (s : Path) : List Char := s.take ramfsNameMax ++ List.replicate (ramfsNameMax - s.length) '\x00'

/-- The string in an array. -/
def nameOf (array : List Char) : Path := array.takeWhile (· != '\x00')

variable (k : ℕ) (fs : DfsRamfs)

/-- The loop of `dfs_ramfs_lookup` (`dfs_ramfs.c:79-89`). -/
def lookupLoop (subpath : Path) : List ℕ → Option (Option ℕ)
  | [] => some none
  | p :: ps => (strcmpName (fs.dirent p).name subpath).bind fun eq =>
      if eq = true then some (some p) else lookupLoop subpath ps

/-- `dfs_ramfs_lookup` (`dfs_ramfs.c:62-93`). -/
def dfsRamfsLookup (path : Path) : Option (Option ℕ) :=
  if strip path = [] then some (some fs.root) else lookupLoop fs (strip path) fs.list

/-- `dfs_ramfs_read` (`dfs_ramfs.c:95-115`): the bytes that it copies. -/
def dfsRamfsRead (file : DfsFd) (count : ℕ) : List (BitVec 8) × DfsFd :=
  let length := if count < sub 32 file.size file.pos then count else sub 32 file.size file.pos
  (slice fs.pool.mem ((fs.dirent file.data).data + file.pos) length, { file with pos := file.pos + length })

/-- `dfs_ramfs_write` (`dfs_ramfs.c:117-152`): the number of bytes that it returns. -/
def dfsRamfsWrite (fd : DfsFd) (buf : List (BitVec 8)) : Option (ℕ × DfsFd × DfsRamfs) :=
  let dirent := fs.dirent fd.data
  if fd.size < add 32 buf.length fd.pos then
    (fs.pool.rtMemheapRealloc k dirent.data (add 32 fd.pos buf.length)).map fun x =>
      if x.1 = 0 then (0, fd, fs.withPool x.2)
      else
        let size := add 32 fd.pos buf.length
        (buf.length, { fd with size := size, pos := size },
          ((fs.withPool x.2).setDirent fd.data { dirent with data := x.1, size := size }).writeAt (x.1 + fd.pos) buf)
  else
    some (buf.length, { fd with pos := add 32 fd.pos buf.length }, fs.writeAt (dirent.data + fd.pos) buf)

/-- A size as an `off_t`, which is signed. -/
def offT (n : ℕ) : ℤ := if n < 2 ^ 31 then n else n - 2 ^ 32

/-- `dfs_ramfs_lseek` (`dfs_ramfs.c:154-164`). -/
def dfsRamfsLseek (file : DfsFd) (offset : ℕ) : Except Errno DfsFd :=
  if offset ≤ offT file.size then .ok { file with pos := offset } else .error .eio

/-- A new node for `path` at the head of the list (`dfs_ramfs.c:218-239`). -/
def createDirent (path : Path) : Option (Option ℕ × DfsRamfs) :=
  (fs.pool.rtMemheapAlloc k sizeofRamfsDirent).map fun x =>
    if x.1 = 0 then (none, fs.withPool x.2)
    else (some x.1, ((fs.withPool x.2).setDirent x.1 ⟨strncpyName (strip path), 0, 0⟩).link x.1)

/-- `rt_memheap_free` of the data, if there is any. -/
def freeData (p : ℕ) : Option Pool :=
  if (fs.dirent p).data ≠ 0 then fs.pool.rtMemheapFree k (fs.dirent p).data else some fs.pool

/-- The file loses its data (`dfs_ramfs.c:250-255`). -/
def truncateDirent (p : ℕ) : Option DfsRamfs :=
  (freeData k fs p).map fun pool => (fs.withPool pool).setDirent p ⟨(fs.dirent p).name, 0, 0⟩

/-- The node that is opened, or the error (`dfs_ramfs.c:185-243`). -/
def openDirent (path : Path) (flags : BitVec 32) : Option (Except Errno ℕ × DfsRamfs) :=
  if has flags oDirectory = true then
    if has flags oCreat = true then some (.error .enospc, fs)
    else (dfsRamfsLookup fs path).map fun found =>
      match found with
      | none => (.error .enoent, fs)
      | some p => (.ok p, fs)
  else
    (dfsRamfsLookup fs path).bind fun found =>
      match found with
      | some p => some (if p = fs.root then .error .enoent else .ok p, fs)
      | none =>
        if has flags oCreat = true ∨ has flags oWronly = true then
          (createDirent k fs path).map fun x =>
            match x.1 with
            | none => (.error .enomem, x.2)
            | some p => (.ok p, x.2)
        else some (.error .enoent, fs)

/-- `dfs_ramfs_open` (`dfs_ramfs.c:173-267`), with what `dfs_file_open` puts into the descriptor. -/
def dfsRamfsOpen (path : Path) (flags : BitVec 32) : Option (Except Errno DfsFd × DfsRamfs) :=
  (openDirent k fs path flags).bind fun x =>
    match x.1 with
    | .error e => some (.error e, x.2)
    | .ok p =>
      let fs := if has flags oDirectory = false ∧ has flags oTrunc = true then truncateDirent k x.2 p else some x.2
      fs.map fun fs =>
        let size := (fs.dirent p).size
        (.ok ⟨path, flags, p, size, if has flags oAppend = true then size else 0⟩, fs)

/-- The loop of `dfs_ramfs_getdents` (`dfs_ramfs.c:315-334`), with `index` and the descriptor's `pos`. -/
def getdentsLoop (finish : ℕ) : ℕ → ℕ → List ℕ → List Path × ℕ
  | _, pos, [] => ([], pos)
  | index, pos, p :: ps =>
    if finish ≤ index then ([], pos)
    else if pos ≤ index then
      let x := getdentsLoop finish (index + 1) (pos + 1) ps
      (nameOf (fs.dirent p).name :: x.1, x.2)
    else getdentsLoop finish (index + 1) pos ps

/-- `dfs_ramfs_getdents` (`dfs_ramfs.c:293-337`): the names that it gives. -/
def dfsRamfsGetdents (file : DfsFd) (count : ℕ) : Except Errno (List Path × DfsFd) :=
  if file.data ≠ fs.root then .error .einval
  else if count / sizeofDirent = 0 then .error .einval
  else
    let x := getdentsLoop fs (file.pos + count / sizeofDirent) 0 file.pos fs.list
    .ok (x.1, { file with pos := x.2 })

/-- `dfs_ramfs_unlink` (`dfs_ramfs.c:339-358`); its memory is freed in two calls. -/
def dfsRamfsUnlink (path : Path) : Option (Except Errno Unit × DfsRamfs) :=
  (dfsRamfsLookup fs path).bind fun found =>
    match found with
    | none => some (.error .enoent, fs)
    | some p =>
      ((freeData k fs p).bind fun pool => pool.rtMemheapFree k p).map fun pool =>
        (.ok (), (fs.withPool pool).unlink p)

/-- `dfs_ramfs_rename` (`dfs_ramfs.c:360-380`). -/
def dfsRamfsRename (oldpath newpath : Path) : Option (Except Errno Unit × DfsRamfs) :=
  (dfsRamfsLookup fs newpath).bind fun found =>
    match found with
    | some _ => some (.error .eexist, fs)
    | none =>
      (dfsRamfsLookup fs oldpath).map fun found =>
        match found with
        | none => (.error .enoent, fs)
        | some p => (.ok (), fs.setDirent p { fs.dirent p with name := strncpyName newpath })

/-- `dfs_ramfs_stat` (`dfs_ramfs.c:269-291`): `st_size`. -/
def dfsRamfsStat (path : Path) : Option (Except Errno ℕ) :=
  (dfsRamfsLookup fs path).map fun found =>
    match found with
    | none => .error .enoent
    | some p => .ok (fs.dirent p).size

/-- Where the members lie in `struct dfs_ramfs`, whose size depends on the configuration. -/
structure Offsets where
  memheap : ℕ
  freeHeader : ℕ
  root : ℕ
  sizeofDfsRamfs : ℕ
  header_fits : freeHeader + 24 ≤ sizeofDfsRamfs
  root_fits : root + sizeofRamfsDirent ≤ sizeofDfsRamfs

/-- The size of the heap behind the object. -/
def heapSize (offs : Offsets) (size : ℕ) : ℕ := (size / 2 ^ k * 2 ^ k - offs.sizeofDfsRamfs) / 2 ^ k * 2 ^ k

/-- `dfs_ramfs_create` (`dfs_ramfs.c:421-455`), for a pool that is larger than the object. -/
def dfsRamfsCreate (offs : Offsets) (mem : Mem) (pool size : ℕ) : DfsRamfs where
  pool :=
    { heap := rtMemheapInit k
        ⟨pool + offs.memheap, pool + offs.freeHeader, 0, 0, 0, 0, 0, 0, fun _ => 0, fun _ => 0, fun _ => 0, fun _ => 0,
          fun _ => 0, fun _ => 0, 0⟩
        (pool + offs.sizeofDfsRamfs) (heapSize k offs size)
      mem := mem }
  root := pool + offs.root
  list := []
  dirent := fun _ => ⟨strncpyName ['.'], 0, 0⟩

/-! ### The calls -/

/-- The file system and the descriptors `0`, .., `maxfd - 1` of the table. -/
structure Sys where
  fs : DfsRamfs
  maxfd : ℕ
  fds : ℕ → Option DfsFd

inductive Whence where
  | set
  | cur
  | stop
  deriving DecidableEq

/-- The calls of `dfs_posix.c`, with the descriptor that `open` gets. -/
inductive Act where
  | opens (fd : ℕ) (path : Path) (flags : BitVec 32)
  | close (fd : ℕ)
  | read (fd : ℕ) (len : ℕ)
  | write (fd : ℕ) (buf : List (BitVec 8))
  | lseek (fd : ℕ) (offset : ℤ) (whence : Whence)
  | getdents (fd : ℕ) (nbytes : ℕ)
  | unlink (path : Path)
  | rename (old new : Path)
  | stat (path : Path)

inductive Result where
  | error (e : Errno)
  | done
  | count (n : ℕ)
  | data (bytes : List (BitVec 8))
  | names (l : List Path)
  deriving DecidableEq

variable {k} (s : Sys)

/-- The file system after `dfs_ramfs_create`, with nothing open. -/
def init (k : ℕ) (offs : Offsets) (mem : Mem) (pool size maxfd : ℕ) : Sys :=
  ⟨dfsRamfsCreate k offs mem pool size, maxfd, fun _ => none⟩

def Sys.setFd (fd : ℕ) (d : Option DfsFd) : Sys := { s with fds := Function.update s.fds fd d }

/-- The test of `fd_is_open` (`dfs.c:314-328`). -/
def Sys.isOpen (path : Path) : Bool := (List.range s.maxfd).any fun i => (s.fds i).any fun d => decide (d.path = path)

/-- The offset that `lseek` asks for (`dfs_posix.c:214-232`), while the sum is an `off_t`. -/
def seekTarget (d : DfsFd) (offset : ℤ) : Whence → ℤ
  | .set => offset
  | .cur => offset + d.pos
  | .stop => offset + d.size

def resultOf (x : Except Errno Unit) : Result :=
  match x with
  | .error e => .error e
  | .ok () => .done

variable (k)

/-- A call, with what it returns. -/
def call (s : Sys) : Act → Option (Result × Sys)
  | .opens fd path flags =>
    (dfsRamfsOpen k s.fs path flags).map fun x =>
      match x.1 with
      | .error e => (.error e, { s with fs := x.2 })
      | .ok d => (.done, { s with fs := x.2 }.setFd fd (some d))
  | .close fd => some (.done, s.setFd fd none)
  | .read fd len =>
    (s.fds fd).map fun d => (.data (dfsRamfsRead s.fs d len).1, s.setFd fd (some (dfsRamfsRead s.fs d len).2))
  | .write fd buf =>
    (s.fds fd).bind fun d =>
      (dfsRamfsWrite k s.fs d buf).map fun x => (.count x.1, { s with fs := x.2.2 }.setFd fd (some x.2.1))
  | .lseek fd offset whence =>
    (s.fds fd).map fun d =>
      if seekTarget d offset whence < 0 then (.error .einval, s)
      else
        match dfsRamfsLseek d (seekTarget d offset whence).toNat with
        | .error e => (.error e, s)
        | .ok d' => (.count d'.pos, s.setFd fd (some d'))
  | .getdents fd nbytes =>
    (s.fds fd).map fun d =>
      match dfsRamfsGetdents s.fs d nbytes with
      | .error e => (.error e, s)
      | .ok x => (.names x.1, s.setFd fd (some x.2))
  | .unlink path =>
    if s.isOpen path = true then some (.error .ebusy, s)
    else (dfsRamfsUnlink k s.fs path).map fun x => (resultOf x.1, { s with fs := x.2 })
  | .rename old new => (dfsRamfsRename s.fs old new).map fun x => (resultOf x.1, { s with fs := x.2 })
  | .stat path =>
    (dfsRamfsStat s.fs path).map fun x =>
      match x with
      | .error e => (.error e, s)
      | .ok n => (.count n, s)

def step (s : Sys) (a : Act) : Option Sys := (call k s a).map Prod.snd

end RtThread.Dfs.Ramfs
