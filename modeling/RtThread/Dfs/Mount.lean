import RtThread.Lib.Transition
import RtThread.Dfs.NormalizePath
import Mathlib

/-!
# The mount table (`dfs_fs.c:214-418`)

A call carries what it meets outside of the table: the memory, the directory, the device and the file
system's callback, each of which may fail.
-/

namespace RtThread.Dfs.Mount

open RtThread.Lib.Transition RtThread.Dfs.NormalizePath

/-- What is read of a `struct dfs_filesystem_ops`: whether the callbacks are there. -/
structure Ops where
  name : List Char
  mount : Bool
  unmount : Bool
  deriving DecidableEq

/-- `struct dfs_filesystem`; `D` is the type of the devices, and `X` of the data of the file systems. -/
structure Filesystem (D X : Type*) where
  devId : Option D
  path : Option Path
  ops : Option Ops
  data : Option X
  deriving DecidableEq

variable {D X : Type*}

def Filesystem.zero : Filesystem D X := ⟨none, none, none, none⟩

abbrev Table (max : ℕ) (D X : Type*) := Fin max → Filesystem D X

/-- The devices, and `filesystem_operation_table`. -/
structure System (D : Type*) where
  rtDeviceFind : List Char → Option D
  operationTable : List (Option Ops)

/-- A call of `dfs_mount`. `mount` is what the file system's callback leaves in `data`, if it succeeds. -/
structure MountCall (X : Type*) where
  deviceName : Option (List Char)
  path : Path
  filesystemtype : List Char
  workdir : Option Path
  malloc : Bool
  fileOpen : Bool
  deviceOpen : Bool
  mount : Option (Option X)

structure UnmountCall where
  specialfile : Path
  workdir : Option Path
  malloc : Bool
  unmount : Bool

inductive Errno where
  | enodev
  | enosys
  | enotdir
  | einval
  | enospc
  deriving DecidableEq

variable {max : ℕ}

structure Result (max : ℕ) (D X : Type*) where
  table : Table max D X
  ret : ℤ
  errno : Option Errno

/-- The checks of `dfs_mount` before the table is locked (`dfs_fs.c:226-279`). -/
def mountChecks (sys : System D) (c : MountCall X) : Except Errno (Option D × Ops × Path) :=
  match c.deviceName.map sys.rtDeviceFind with
  | some none => .error .enodev
  | device =>
    match (sys.operationTable.filterMap id).find? fun ops => ops.name = c.filesystemtype with
    | none => .error .enodev
    | some ops =>
      if ops.mount = false then .error .enosys
      else
        match dfsNormalizePath c.workdir c.malloc none c.path with
        | none => .error .enotdir
        | some fullpath =>
          if fullpath ≠ ['/'] ∧ fullpath ≠ "/dev".toList ∧ c.fileOpen = false then .error .enotdir
          else .ok (device.join, ops, fullpath)

/-- The search for an empty entry (`dfs_fs.c:285-306`). -/
def findEntry (path : Path) (table : Table max D X) : List (Fin max) → Option (Fin max) → Except Errno (Fin max)
  | [], none => .error .enospc
  | [], some fs => .ok fs
  | iter :: rest, fs =>
    if (table iter).ops = none then findEntry path table rest (fs.or (some iter))
    else if (table iter).path = some path then .error .einval
    else findEntry path table rest fs

/-- The rest of `dfs_mount` (`dfs_fs.c:308-353`). -/
def mountEntry (c : MountCall X) (table : Table max D X) (devId : Option D) (ops : Ops) (fullpath : Path) (fs : Fin max) :
    Result max D X :=
  let table := Function.update table fs { table fs with path := some fullpath, ops := some ops, devId := devId }
  if devId.isSome ∧ c.deviceOpen = false then ⟨Function.update table fs .zero, -1, none⟩
  else
    match c.mount with
    | none => ⟨Function.update table fs .zero, -1, none⟩
    | some data => ⟨Function.update table fs { table fs with data := data }, 0, none⟩

/-- `dfs_mount` (`dfs_fs.c:214-354`). -/
def dfsMount (sys : System D) (table : Table max D X) (c : MountCall X) : Result max D X :=
  match mountChecks sys c with
  | .error e => ⟨table, -1, some e⟩
  | .ok (devId, ops, fullpath) =>
    match findEntry c.path table (List.finRange max) none with
    | .error e => ⟨table, -1, some e⟩
    | .ok fs => mountEntry c table devId ops fullpath fs

/-- `dfs_unmount` (`dfs_fs.c:363-418`). -/
def dfsUnmount (table : Table max D X) (c : UnmountCall) : Result max D X :=
  match dfsNormalizePath c.workdir c.malloc none c.specialfile with
  | none => ⟨table, -1, some .enotdir⟩
  | some fullpath =>
    match (List.finRange max).find? fun iter => (table iter).path = some fullpath with
    | none => ⟨table, -1, none⟩
    | some fs =>
      match (table fs).ops with
      | none => ⟨table, -1, none⟩
      | some ops =>
        if ops.unmount = false ∨ c.unmount = false then ⟨table, -1, none⟩
        else ⟨Function.update table fs .zero, 0, none⟩

/-! ### Runs -/

inductive Act (X : Type*) where
  | mount (c : MountCall X)
  | unmount (c : UnmountCall)

def call (sys : System D) (table : Table max D X) : Act X → Result max D X
  | .mount c => dfsMount sys table c
  | .unmount c => dfsUnmount table c

def step (sys : System D) (table : Table max D X) (a : Act X) : Option (Table max D X) :=
  some (call sys table a).table

def start : Table max D X := fun _ => .zero

/-- The path of a call, as `dfs_normalize_path` gives it. -/
def Act.fullpath : Act X → Option Path
  | .mount c => dfsNormalizePath c.workdir c.malloc none c.path
  | .unmount c => dfsNormalizePath c.workdir c.malloc none c.specialfile

/-- What the table is for: a map from the paths to the file systems mounted there. -/
def mountedAt (table : Table max D X) (path : Path) : Option (Filesystem D X) :=
  ((List.finRange max).find? fun i => (table i).path = some path).map table

/-- Entries are filled or empty, and the paths of the mounted ones are normalised and distinct. -/
structure Consistent (table : Table max D X) : Prop where
  filled : ∀ i, table i = .zero ∨ (table i).path.isSome ∧ (table i).ops.isSome
  normalized : ∀ i p, (table i).path = some p → Normalized p
  distinct : ∀ i j p, (table i).path = some p → (table j).path = some p → i = j

/-- A call that returns -1 leaves the table as it was, and one that returns 0 mounts at the normalised path,
or undoes the mount there, and at no other path. -/
def CallRight (sys : System D) (table : Table max D X) (a : Act X) : Prop :=
  ((call sys table a).ret = -1 ∧ (call sys table a).table = table) ∨
    ((call sys table a).ret = 0 ∧ ∃ path, a.fullpath = some path ∧
      match a with
      | .mount _ => mountedAt table path = none ∧
          ∃ fs, mountedAt (call sys table a).table = Function.update (mountedAt table) path (some fs)
      | .unmount _ => (mountedAt table path).isSome = true ∧
          mountedAt (call sys table a).table = Function.update (mountedAt table) path none)

/-- Nothing outside of the paths of the table stops a mount at `path`. -/
structure GoesThrough (sys : System D) (table : Table max D X) (c : MountCall X) (path : Path) : Prop where
  checks : ∃ devId ops, mountChecks sys c = .ok (devId, ops, path) ∧ (devId = none ∨ c.deviceOpen = true)
  empty : ∃ i, (table i).ops = none
  mount : c.mount.isSome = true

/-- A mount that goes through stays below the root, and nothing is mounted at its path unless the path is
spelled in its normalised form. -/
def SpelledOut (sys : System D) (table : Table max D X) : Act X → Prop
  | .mount c => ∀ path, GoesThrough sys table c path →
      (∀ text place, fullText c.workdir none c.path = some text → resolve text = some place →
        place.rooted = true ∨ place.names = []) ∧ (mountedAt table path = none ∨ c.path = path)
  | .unmount _ => True

/-! ### The map -/

section Map

variable {table table' : Table max D X} {path : Path}

theorem mountedAt_eq_none : mountedAt table path = none ↔ ∀ i, (table i).path ≠ some path := by
  simp only [mountedAt, Option.map_eq_none_iff, List.find?_eq_none, List.mem_finRange, true_imp_iff, decide_eq_true_eq]

theorem mountedAt_of_path {i : Fin max} (hi : (table i).path = some path)
    (honly : ∀ j, (table j).path = some path → j = i) : mountedAt table path = some (table i) := by
  cases hfind : (List.finRange max).find? fun j => (table j).path = some path with
  | none => exact absurd (decide_eq_true hi) (List.find?_eq_none.mp hfind i (List.mem_finRange i))
  | some j =>
    have hj := List.find?_some hfind
    rw [mountedAt, hfind, honly j (of_decide_eq_true hj)]
    rfl

theorem mountedAt_congr (hpath : ∀ i, (table' i).path = some path ↔ (table i).path = some path)
    (hsame : ∀ i, (table i).path = some path → table' i = table i) : mountedAt table' path = mountedAt table path := by
  have hpred : (fun i => decide ((table' i).path = some path)) = fun i => decide ((table i).path = some path) :=
    funext fun i => decide_eq_decide.mpr (hpath i)
  rw [mountedAt, mountedAt, hpred]
  cases hfind : (List.finRange max).find? fun i => decide ((table i).path = some path) with
  | none => rfl
  | some i =>
    have hi := List.find?_some hfind
    exact congrArg some (hsame i (of_decide_eq_true hi))

/-- A change of the entry `i` is one of the map at `path`, when no other path is in the entry before or after. -/
theorem mountedAt_update {i : Fin max} {fs : Filesystem D X} (hold : ∀ p, (table i).path = some p → p = path)
    (hnew : ∀ p, fs.path = some p → p = path) {p : Path} (hp : p ≠ path) :
    mountedAt (Function.update table i fs) p = mountedAt table p := by
  have hne : ∀ j, (Function.update table i fs j).path = some p → j ≠ i := by
    rintro j hj rfl
    rw [Function.update_self] at hj
    exact hp (hnew p hj)
  refine mountedAt_congr (fun j => ?_) fun j hj => ?_
  · constructor
    · intro hj
      rw [Function.update_of_ne (hne j hj)] at hj
      exact hj
    · intro hj
      rw [Function.update_of_ne]
      · exact hj
      · rintro rfl
        exact hp (hold p hj)
  · rw [Function.update_of_ne]
    rintro rfl
    exact hp (hold p hj)

theorem mountedAt_fill {i : Fin max} {fs : Filesystem D X} (hzero : table i = .zero) (hfs : fs.path = some path)
    (hnone : mountedAt table path = none) :
    mountedAt (Function.update table i fs) = Function.update (mountedAt table) path (some fs) := by
  funext p
  by_cases hp : p = path
  · subst hp
    have hself : (Function.update table i fs i).path = some p := by rw [Function.update_self, hfs]
    have honly : ∀ j, (Function.update table i fs j).path = some p → j = i := by
      intro j hj
      by_contra hne
      rw [Function.update_of_ne hne] at hj
      exact mountedAt_eq_none.mp hnone j hj
    rw [Function.update_self, mountedAt_of_path hself honly, Function.update_self]
  · rw [Function.update_of_ne hp]
    refine mountedAt_update (fun q hq => ?_) (fun q hq => ?_) hp
    · rw [hzero] at hq
      cases hq
    · rw [hfs] at hq
      exact (Option.some.inj hq).symm

theorem mountedAt_clear {i : Fin max} (hi : (table i).path = some path)
    (honly : ∀ j, (table j).path = some path → j = i) :
    mountedAt (Function.update table i .zero) = Function.update (mountedAt table) path none := by
  funext p
  by_cases hp : p = path
  · subst hp
    rw [Function.update_self, mountedAt_eq_none]
    intro j hj
    by_cases hne : j = i
    · rw [hne, Function.update_self] at hj
      cases hj
    · rw [Function.update_of_ne hne] at hj
      exact hne (honly j hj)
  · rw [Function.update_of_ne hp]
    refine mountedAt_update (fun q hq => ?_) (fun q hq => by cases hq) hp
    rw [hi] at hq
    exact (Option.some.inj hq).symm

end Map

theorem findEntry_cases (path : Path) (table : Table max D X) (l : List (Fin max)) (fs : Option (Fin max))
    (hfs : ∀ i, fs = some i → (table i).ops = none) :
    (findEntry path table l fs = .error .einval ∧ ∃ i, (table i).path = some path) ∨
      (findEntry path table l fs = .error .enospc ∧ fs = none ∧ ∀ i ∈ l, (table i).ops ≠ none) ∨
        ∃ i, findEntry path table l fs = .ok i ∧ (table i).ops = none ∧
          ∀ j ∈ l, (table j).ops ≠ none → (table j).path ≠ some path := by
  induction l generalizing fs with
  | nil =>
    cases fs with
    | none => exact .inr (.inl ⟨rfl, rfl, fun i hi => absurd hi List.not_mem_nil⟩)
    | some i => exact .inr (.inr ⟨i, rfl, hfs i rfl, fun j hj => absurd hj List.not_mem_nil⟩)
  | cons iter rest ih =>
    by_cases hops : (table iter).ops = none
    · have hor : ∀ i, fs.or (some iter) = some i → (table i).ops = none := by
        intro i hi
        cases fs with
        | none => cases hi; exact hops
        | some j => exact hfs i hi
      rw [findEntry, if_pos hops]
      obtain hdup | ⟨hfull, hfs', hall⟩ | ⟨i, hok, hempty, hall⟩ := ih (fs.or (some iter)) hor
      · exact .inl hdup
      · cases fs with
        | none => cases hfs'
        | some j => cases hfs'
      · refine .inr (.inr ⟨i, hok, hempty, fun j hj => ?_⟩)
        rcases List.mem_cons.mp hj with rfl | hj
        · exact fun h => absurd hops h
        · exact hall j hj
    · rw [findEntry, if_neg hops]
      by_cases hpath : (table iter).path = some path
      · exact .inl ⟨if_pos hpath, iter, hpath⟩
      · rw [if_neg hpath]
        obtain hdup | ⟨hfull, hfs', hall⟩ | ⟨i, hok, hempty, hall⟩ := ih fs hfs
        · exact .inl hdup
        · refine .inr (.inl ⟨hfull, hfs', fun i hi => ?_⟩)
          rcases List.mem_cons.mp hi with rfl | hi
          · exact hops
          · exact hall i hi
        · refine .inr (.inr ⟨i, hok, hempty, fun j hj => ?_⟩)
          rcases List.mem_cons.mp hj with rfl | hj
          · exact fun _ => hpath
          · exact hall j hj

theorem mountChecks_ok {sys : System D} {c : MountCall X} {devId : Option D} {ops : Ops} {path : Path}
    (h : mountChecks sys c = .ok (devId, ops, path)) : dfsNormalizePath c.workdir c.malloc none c.path = some path := by
  unfold mountChecks at h
  split at h
  · cases h
  · split at h
    · cases h
    · split at h
      · cases h
      · split at h
        · cases h
        · next hpath =>
          split at h
          · cases h
          · cases h
            exact hpath

theorem mountEntry_ok {c : MountCall X} {data : Option X} (hmount : c.mount = some data) {devId : Option D}
    (hdev : devId = none ∨ c.deviceOpen = true) (table : Table max D X) (ops : Ops) (path : Path) (fs : Fin max) :
    mountEntry c table devId ops path fs = ⟨Function.update table fs ⟨devId, some path, some ops, data⟩, 0, none⟩ := by
  have hopen : ¬(devId.isSome = true ∧ c.deviceOpen = false) := by
    rintro ⟨hsome, hclosed⟩
    rcases hdev with rfl | hopen
    · cases hsome
    · rw [hopen] at hclosed
      cases hclosed
  rw [mountEntry, if_neg hopen, hmount]
  simp only [Function.update_idem, Function.update_self]

theorem mountEntry_fails {c : MountCall X} {devId : Option D}
    (hfail : c.mount = none ∨ ¬(devId = none ∨ c.deviceOpen = true)) {table : Table max D X} (ops : Ops) (path : Path)
    {fs : Fin max} (hzero : table fs = .zero) : mountEntry c table devId ops path fs = ⟨table, -1, none⟩ := by
  have hroll : Function.update table fs .zero = table := by rw [← hzero, Function.update_eq_self]
  simp only [mountEntry, Function.update_idem, hroll]
  rcases hfail with hmount | hclosed
  · rw [hmount, ite_self]
  · rw [if_pos]
    rw [not_or] at hclosed
    exact ⟨Option.isSome_iff_ne_none.mpr hclosed.1, eq_false_of_ne_true hclosed.2⟩

theorem Consistent.zero_of_ops {table : Table max D X} (h : Consistent table) {i : Fin max} (hi : (table i).ops = none) :
    table i = .zero := by
  rcases h.filled i with hzero | ⟨-, hops⟩
  · exact hzero
  · rw [hi] at hops
    cases hops

theorem Consistent.ops_of_path {table : Table max D X} (h : Consistent table) {i : Fin max} {path : Path}
    (hi : (table i).path = some path) : (table i).ops ≠ none := by
  intro hops
  rw [h.zero_of_ops hops] at hi
  cases hi

/-- A mount fails with the table as it was, and would have gone through only if its path is the text of a
mounted one; or it goes through and fills an empty entry. -/
theorem dfsMount_cases (sys : System D) {table : Table max D X} (h : Consistent table) (c : MountCall X) :
    ((dfsMount sys table c).ret = -1 ∧ (dfsMount sys table c).table = table ∧
        ∀ path, GoesThrough sys table c path → ∃ i, (table i).path = some c.path) ∨
      ∃ path i fs, GoesThrough sys table c path ∧ table i = .zero ∧ fs.path = some path ∧ fs.ops.isSome = true ∧
        (∀ j, (table j).path ≠ some c.path) ∧ dfsMount sys table c = ⟨Function.update table i fs, 0, none⟩ := by
  unfold dfsMount
  cases hchecks : mountChecks sys c with
  | error e =>
    refine .inl ⟨rfl, rfl, fun path hgo => ?_⟩
    obtain ⟨devId, ops, hok, -⟩ := hgo.checks
    rw [hchecks] at hok
    cases hok
  | ok r =>
    obtain ⟨devId, ops, path⟩ := r
    simp only
    obtain ⟨hfind, hdup⟩ | ⟨hfind, -, hfull⟩ | ⟨i, hfind, hempty, hnot⟩ :=
      findEntry_cases c.path table (List.finRange max) none (fun i hi => by cases hi)
    · rw [hfind]
      exact .inl ⟨rfl, rfl, fun _ _ => hdup⟩
    · rw [hfind]
      refine .inl ⟨rfl, rfl, fun path hgo => ?_⟩
      obtain ⟨i, hi⟩ := hgo.empty
      exact absurd hi (hfull i (List.mem_finRange i))
    · rw [hfind]
      simp only
      have hzero := h.zero_of_ops hempty
      by_cases hfail : c.mount = none ∨ ¬(devId = none ∨ c.deviceOpen = true)
      · rw [mountEntry_fails hfail ops path hzero]
        refine .inl ⟨rfl, rfl, fun path' hgo => ?_⟩
        obtain ⟨devId', ops', hok, hdev⟩ := hgo.checks
        rw [hchecks] at hok
        cases hok
        rcases hfail with hmount | hclosed
        · have hsome := hgo.mount
          rw [hmount] at hsome
          cases hsome
        · exact absurd hdev hclosed
      · rw [not_or, not_not] at hfail
        obtain ⟨data, hdata⟩ := Option.ne_none_iff_exists'.mp hfail.1
        refine .inr ⟨path, i, ⟨devId, some path, some ops, data⟩, ?_, hzero, rfl, rfl, fun j hj => ?_,
          mountEntry_ok hdata hfail.2 table ops path i⟩
        · exact ⟨⟨devId, ops, hchecks, hfail.2⟩, ⟨i, hempty⟩, Option.isSome_iff_ne_none.mpr hfail.1⟩
        · exact hnot j (List.mem_finRange j) (h.ops_of_path hj) hj

theorem dfsUnmount_cases (table : Table max D X) (c : UnmountCall) :
    ((dfsUnmount table c).ret = -1 ∧ (dfsUnmount table c).table = table) ∨
      ∃ path i, dfsNormalizePath c.workdir c.malloc none c.specialfile = some path ∧ (table i).path = some path ∧
        dfsUnmount table c = ⟨Function.update table i .zero, 0, none⟩ := by
  unfold dfsUnmount
  cases hpath : dfsNormalizePath c.workdir c.malloc none c.specialfile with
  | none => exact .inl ⟨rfl, rfl⟩
  | some path =>
    simp only
    cases hfind : (List.finRange max).find? fun iter => decide ((table iter).path = some path) with
    | none => exact .inl ⟨rfl, rfl⟩
    | some i =>
      simp only
      cases hops : (table i).ops with
      | none => exact .inl ⟨rfl, rfl⟩
      | some ops =>
        simp only
        by_cases hfail : ops.unmount = false ∨ c.unmount = false
        · rw [if_pos hfail]
          exact .inl ⟨rfl, rfl⟩
        · rw [if_neg hfail]
          have hi := List.find?_some hfind
          exact .inr ⟨path, i, rfl, of_decide_eq_true hi, rfl⟩

/-! ### Runs keep the table consistent -/

section Runs

variable {sys : System D} {table : Table max D X}

theorem consistent_start : Consistent (start : Table max D X) where
  filled _ := .inl rfl
  normalized i p h := by cases h
  distinct i j p h := by cases h

theorem consistent_fill {i : Fin max} {fs : Filesystem D X} {path : Path} (h : Consistent table)
    (hfs : fs.path = some path) (hops : fs.ops.isSome = true) (hpath : Normalized path)
    (hnone : mountedAt table path = none) : Consistent (Function.update table i fs) where
  filled j := by
    by_cases hj : j = i
    · rw [hj, Function.update_self, hfs]
      exact .inr ⟨rfl, hops⟩
    · rw [Function.update_of_ne hj]
      exact h.filled j
  normalized j p hp := by
    by_cases hj : j = i
    · rw [hj, Function.update_self, hfs] at hp
      cases hp
      exact hpath
    · rw [Function.update_of_ne hj] at hp
      exact h.normalized j p hp
  distinct j k p hj hk := by
    have hnot := mountedAt_eq_none.mp hnone
    by_cases hji : j = i
    · by_cases hki : k = i
      · rw [hji, hki]
      · rw [hji, Function.update_self, hfs] at hj
        cases hj
        rw [Function.update_of_ne hki] at hk
        exact absurd hk (hnot k)
    · rw [Function.update_of_ne hji] at hj
      by_cases hki : k = i
      · rw [hki, Function.update_self, hfs] at hk
        cases hk
        exact absurd hj (hnot j)
      · rw [Function.update_of_ne hki] at hk
        exact h.distinct j k p hj hk

theorem consistent_clear (h : Consistent table) (i : Fin max) : Consistent (Function.update table i .zero) := by
  have hold : ∀ j p, (Function.update table i .zero j).path = some p → (table j).path = some p := by
    intro j p hp
    by_cases hj : j = i
    · rw [hj, Function.update_self] at hp
      cases hp
    · rw [Function.update_of_ne hj] at hp
      exact hp
  refine ⟨fun j => ?_, fun j p hp => h.normalized j p (hold j p hp),
    fun j k p hj hk => h.distinct j k p (hold j p hj) (hold k p hk)⟩
  by_cases hj : j = i
  · rw [hj, Function.update_self]
    exact .inl rfl
  · rw [Function.update_of_ne hj]
    exact h.filled j

theorem normalized_iff {workdir directory : Option Path} {malloc : Bool} {filename path : Path}
    (h : dfsNormalizePath workdir malloc directory filename = some path) :
    Normalized path ↔ ∀ text place, fullText workdir directory filename = some text → resolve text = some place →
      place.rooted = true ∨ place.names = [] := by
  rw [dfsNormalizePath_eq, Option.bind_eq_some_iff] at h
  obtain ⟨text, htext, h⟩ := h
  rw [Option.ite_none_right_eq_some, Option.map_eq_some_iff] at h
  obtain ⟨-, place, hplace, rfl⟩ := h
  rw [normalized_text_iff]
  constructor
  · rintro hroot text' place' htext' hplace'
    rw [htext] at htext'
    cases htext'
    rw [hplace] at hplace'
    cases hplace'
    exact hroot
  · exact fun hall => hall text place htext hplace

theorem Consistent.fullpath_of_path {i : Fin max} {c : MountCall X} {path : Path} (h : Consistent table)
    (hi : (table i).path = some c.path) (hpath : dfsNormalizePath c.workdir c.malloc none c.path = some path) :
    c.path = path := by
  have hmalloc : c.malloc = true := by
    rw [dfsNormalizePath_eq, Option.bind_eq_some_iff] at hpath
    obtain ⟨text, -, hpath⟩ := hpath
    exact (Option.ite_none_right_eq_some.mp hpath).1
  rw [hmalloc, (h.normalized i c.path hi).dfsNormalizePath_eq] at hpath
  exact Option.some.inj hpath

theorem call_mount_iff (h : Consistent table) (c : MountCall X) :
    Consistent (dfsMount sys table c).table ∧ CallRight sys table (.mount c) ↔ SpelledOut sys table (.mount c) := by
  obtain ⟨hret, htable, hgone⟩ | ⟨path, i, fs, hgo, hzero, hfs, hops, hnot, hok⟩ := dfsMount_cases sys h c
  · rw [htable]
    refine iff_of_true ⟨h, .inl ⟨hret, htable⟩⟩ fun path hgo => ?_
    obtain ⟨i, hi⟩ := hgone path hgo
    obtain ⟨devId, ops, hchecks, -⟩ := hgo.checks
    have hpath := mountChecks_ok hchecks
    have heq := h.fullpath_of_path hi hpath
    refine ⟨(normalized_iff hpath).mp ?_, .inr heq⟩
    rw [← heq]
    exact h.normalized i c.path hi
  · obtain ⟨devId, ops, hchecks, -⟩ := hgo.checks
    have hpath := mountChecks_ok hchecks
    rw [hok]
    constructor
    · rintro ⟨hcons, hright⟩ path' hgo'
      obtain ⟨devId', ops', hchecks', -⟩ := hgo'.checks
      rw [hchecks] at hchecks'
      cases hchecks'
      refine ⟨(normalized_iff hpath).mp (hcons.normalized i path ?_), .inl ?_⟩
      · simp only [Function.update_self, hfs]
      · rcases hright with ⟨hret, -⟩ | ⟨-, path', hpath', hnone, -⟩
        · simp only [call, hok] at hret
          cases hret
        · simp only [Act.fullpath, hpath, Option.some.injEq] at hpath'
          rw [hpath']
          exact hnone
    · intro hspelled
      obtain ⟨hroot, hfree⟩ := hspelled path hgo
      have hnone : mountedAt table path = none := by
        rcases hfree with hnone | heq
        · exact hnone
        · rw [← heq]
          exact mountedAt_eq_none.mpr hnot
      refine ⟨consistent_fill h hfs hops ((normalized_iff hpath).mpr hroot) hnone, .inr ?_⟩
      simp only [call, hok]
      exact ⟨trivial, path, hpath, hnone, fs, mountedAt_fill hzero hfs hnone⟩

theorem call_unmount (h : Consistent table) (c : UnmountCall) :
    Consistent (dfsUnmount table c).table ∧ CallRight sys table (.unmount c) := by
  obtain ⟨hret, htable⟩ | ⟨path, i, hpath, hi, hok⟩ := dfsUnmount_cases table c
  · rw [htable]
    exact ⟨h, .inl ⟨hret, htable⟩⟩
  · have honly : ∀ j, (table j).path = some path → j = i := fun j hj => h.distinct j i path hj hi
    rw [hok]
    refine ⟨consistent_clear h i, .inr ?_⟩
    simp only [call, hok]
    refine ⟨trivial, path, hpath, ?_, mountedAt_clear hi honly⟩
    rw [mountedAt_of_path hi honly, Option.isSome_some]

/-- In a run of the calls, the table is consistent in every state and every call is right exactly if every
mount spells its path out. -/
theorem mount_table_consistent_iff (sys : System D) (acts : List (Act X)) :
    AllStates (step sys) Consistent (start : Table max D X) acts ∧
        AllSteps (step sys) (CallRight sys) (start : Table max D X) acts ↔
      AllSteps (step sys) (SpelledOut sys) (start : Table max D X) acts := by
  refine allStates_and_allSteps_iff Consistent (CallRight sys) (SpelledOut sys) (fun table a table' h hstep => ?_) acts
    consistent_start
  cases hstep
  cases a with
  | mount c => exact call_mount_iff h c
  | unmount c => exact iff_of_true (call_unmount h c) trivial

end Runs

/-- One file system, which needs no device. -/
def ramfs : System ℕ := ⟨fun _ => none, [some ⟨"ram".toList, true, true⟩]⟩

/-- A mount for which everything outside of the table succeeds, in a build with a working directory. -/
def mountRam (path : Path) : MountCall ℕ := ⟨none, path, "ram".toList, some ['/'], true, true, true, some none⟩

/-- `/mnt` is mounted twice, under two spellings; and `/../mnt` is mounted as `mnt`. -/
theorem mount_table_inconsistent :
    ¬AllStates (step ramfs) Consistent (start : Table 2 ℕ ℕ)
        [.mount (mountRam "/mnt".toList), .mount (mountRam "/mnt/".toList)] ∧
      ¬AllStates (step ramfs) Consistent (start : Table 2 ℕ ℕ) [.mount (mountRam "/../mnt".toList)] := by
  constructor
  · intro h
    have hcons := ((h.2 _ rfl).2 _ rfl).head
    have hsame := hcons.distinct 0 1 "/mnt".toList (by decide +kernel) (by decide +kernel)
    exact absurd hsame (by decide)
  · intro h
    obtain ⟨names, hnames⟩ := (h.2 _ rfl).head.normalized 0 "mnt".toList (by decide +kernel)
    have hhead := head_text_rooted names
    rw [← hnames] at hhead
    exact absurd hhead (by decide)

end RtThread.Dfs.Mount
