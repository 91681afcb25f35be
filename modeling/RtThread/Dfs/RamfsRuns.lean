import RtThread.Dfs.RamfsBlocks

/-!
# Runs of the RAM file system

Every call of a run returns what the file system of one directory returns, and leaves what it leaves.
-/

namespace RtThread.Dfs.Ramfs

open RtThread.Lib.Flags RtThread.Lib.Ring RtThread.Lib.Transition RtThread.Lib.Word RtThread.Memory.MemHeap

variable {k p fd : ℕ} {region : ℕ × ℕ × ℕ} {s : Sys} {x x' : Files} {d : DfsFd}
  {live : ℕ → Option ℕ} {path : Path} {flags : BitVec 32}

/-- An open descriptor of a file whose name is that of its path, or has a separator in front. -/
structure Describes (x : Files) (d : DfsFd) : Prop where
  size : d.size = (x.text d.data).length
  path : Subpath d.path
  file : d.data ≠ x.root → (x.content d.data).isSome = true ∧ d.pos ≤ d.size ∧
    ∃ name, (name, d.data) ∈ x.entries ∧ (name = strip d.path ∨ name.head? = some '/')

/-- The descriptors of the table, no two of one file. -/
structure Opened (x : Files) (fds : ℕ → Option DfsFd) : Prop where
  bound : ∀ fd d, fds fd = some d → fd < x.maxfd
  describes : ∀ fd d, fds fd = some d → Describes x d
  exclusive : ∀ i j d e, fds i = some d → fds j = some e → d.data = e.data → d.data ≠ x.root → i = j

def Inv (k : ℕ) (region : ℕ × ℕ × ℕ) (s : Sys) : Prop := (∃ live, Stored k region s.fs live) ∧ Opened s.files s.fds

/-! ### Views -/

def Sys.withFs (s : Sys) (fs : DfsRamfs) : Sys := { s with fs := fs }

theorem files_withFs {fs : DfsRamfs} {root : ℕ} {entries : List (Path × ℕ)} {content : ℕ → Option (List (BitVec 8))}
    (h : Shows fs root entries content) :
    (s.withFs fs).files = ⟨root, s.maxfd, entries, content, s.files.handle⟩ := by
  obtain ⟨rfl, rfl, rfl⟩ := h
  rfl

@[simp] theorem files_root : s.files.root = s.fs.root := rfl

@[simp] theorem files_content : s.files.content = s.fs.content := rfl

@[simp] theorem files_entries : s.files.entries = s.fs.entries := rfl

theorem files_handle_eq (fd : ℕ) : s.files.handle fd = (s.fds fd).map DfsFd.handle := rfl

@[simp] theorem files_setFd (o : Option DfsFd) : (s.setFd fd o).files = s.files.setHandle fd (o.map DfsFd.handle) := by
  have hhandle : (fun i => (Function.update s.fds fd o i).map DfsFd.handle) =
      Function.update s.files.handle fd (o.map DfsFd.handle) := by
    funext i
    by_cases hi : i = fd
    · rw [hi, Function.update_self, Function.update_self]
    · rw [Function.update_of_ne hi, Function.update_of_ne hi, files_handle_eq]
  rw [Files.setHandle, ← hhandle]
  rfl

@[simp] theorem withFs_fs (fs : DfsRamfs) : (s.withFs fs).fs = fs := rfl

@[simp] theorem withFs_fds (fs : DfsRamfs) : (s.withFs fs).fds = s.fds := rfl

theorem files_handle (hd : s.fds fd = some d) : s.files.handle fd = some d.handle := by
  rw [files_handle_eq, hd, Option.map_some]

theorem files_find_mem (hpath : strip path ≠ []) (h : s.files.find path = some p) :
    p ∈ s.fs.list ∧ (strip path, p) ∈ s.files.entries := by
  rw [Files.find, if_neg hpath] at h
  obtain ⟨e, he, rfl⟩ := Option.map_eq_some_iff.mp h
  have hname := List.find?_some he
  have hmem := List.mem_of_find?_eq_some he
  rw [beq_iff_eq] at hname
  rw [← hname]
  obtain ⟨q, hq, rfl⟩ := List.mem_map.mp hmem
  exact ⟨hq, hmem⟩

theorem length_text (hk : k ≤ 30) (hs : Stored k region s.fs live) (hp : p ∈ s.fs.list ∨ p = s.fs.root) :
    (s.files.text p).length = (s.fs.dirent p).size := by
  obtain hp | rfl := hp
  · rw [Files.text, files_content, content_of_mem hp, Option.getD_some, length_bytes]
  · rw [Files.text, files_content, content_of_notMem (hs.root_notMem hk), hs.root_size]
    rfl

theorem Subpath.zero_notMem (h : Subpath path) : '\x00' ∉ path := by
  obtain ⟨name, rfl, -, hz⟩ := h
  simp [hz]

theorem Subpath.strip_eq (h : Subpath path) : path = '/' :: strip path ∧ (strip path).head? ≠ some '/' := by
  obtain ⟨name, rfl, hhead, -⟩ := h
  have hstrip : strip ('/' :: name) = name := by
    cases name with
    | nil => rfl
    | cons c cs =>
      have hc : c ≠ '/' := fun h => hhead (by rw [h]; rfl)
      simp [strip, hc]
  rw [hstrip]
  exact ⟨rfl, hhead⟩

/-! ### The open descriptors -/

theorem Describes.keep (hd : Describes x d) (hroot : x'.root = x.root) (hcontent : x'.content d.data = x.content d.data)
    (hentries : ∀ name, (name, d.data) ∈ x.entries →
      ∃ name', (name', d.data) ∈ x'.entries ∧ (name' = name ∨ name'.head? = some '/')) : Describes x' d where
  size := by rw [hd.size, Files.text, Files.text, hcontent]
  path := hd.path
  file hne := by
    rw [hroot] at hne
    obtain ⟨hsome, hpos, name, hmem, hname⟩ := hd.file hne
    obtain ⟨name', hmem', hname'⟩ := hentries name hmem
    refine ⟨by rwa [hcontent], hpos, name', hmem', ?_⟩
    obtain rfl | hname' := hname'
    · exact hname
    · exact Or.inr hname'

theorem Describes.setHandle (hd : Describes x d) (h : Option Handle) : Describes (x.setHandle fd h) d :=
  hd.keep rfl rfl fun name hmem => ⟨name, hmem, Or.inl rfl⟩

theorem Describes.written (hd : Describes x d) (hpos : d.pos ≤ d.size) {buf : List (BitVec 8)} :
    Describes (x.setContent d.data (some (splice (x.text d.data) d.pos buf)))
      { d with size := max d.size (d.pos + buf.length), pos := d.pos + buf.length } where
  size := by
    rw [hd.size] at hpos
    simp only [Files.text, Files.setContent, Function.update_self, Option.getD_some]
    rw [← Files.text, length_splice hpos, ← hd.size]
  path := hd.path
  file hne := ⟨by simp [Files.setContent], le_max_right _ _, (hd.file hne).2.2⟩

theorem Opened.set {fds : ℕ → Option DfsFd} (ho : Opened x fds) (hroot : x'.root = x.root) (hmax : x'.maxfd = x.maxfd)
    (hfd : fd < x.maxfd) (hd : Describes x' d) (hothers : ∀ i e, i ≠ fd → fds i = some e → Describes x' e)
    (hnew : ∀ i e, i ≠ fd → fds i = some e → e.data = d.data → d.data = x.root) :
    Opened x' (Function.update fds fd (some d)) where
  bound i e he := by
    rw [hmax]
    by_cases hi : i = fd
    · exact hi ▸ hfd
    · rw [Function.update_of_ne hi] at he
      exact ho.bound i e he
  describes i e he := by
    by_cases hi : i = fd
    · rw [hi, Function.update_self, Option.some.injEq] at he
      exact he ▸ hd
    · rw [Function.update_of_ne hi] at he
      exact hothers i e hi he
  exclusive i j e f he hf hdata hne := by
    rw [hroot] at hne
    by_cases hi : i = fd <;> by_cases hj : j = fd
    · rw [hi, hj]
    · rw [hi, Function.update_self, Option.some.injEq] at he
      rw [Function.update_of_ne hj] at hf
      subst he
      exact absurd (hnew j f hj hf hdata.symm) hne
    · rw [hj, Function.update_self, Option.some.injEq] at hf
      rw [Function.update_of_ne hi] at he
      subst hf
      exact absurd (hdata.trans (hnew i e hi he hdata)) hne
    · rw [Function.update_of_ne hi] at he
      rw [Function.update_of_ne hj] at hf
      exact ho.exclusive i j e f he hf hdata hne

theorem Opened.keep {fds : ℕ → Option DfsFd} (ho : Opened x fds) (hroot : x'.root = x.root) (hmax : x'.maxfd = x.maxfd)
    (hd : ∀ i e, fds i = some e → Describes x' e) : Opened x' fds where
  bound i e he := hmax ▸ ho.bound i e he
  describes := hd
  exclusive i j e f he hf hdata hne := ho.exclusive i j e f he hf hdata (hroot ▸ hne)

theorem Opened.close {fds : ℕ → Option DfsFd} (ho : Opened x fds) :
    Opened (x.setHandle fd none) (Function.update fds fd none) := by
  have hold : ∀ i e, Function.update fds fd none i = some e → fds i = some e := fun i e he => by
    by_cases hi : i = fd
    · rw [hi, Function.update_self] at he
      cases he
    · rwa [Function.update_of_ne hi] at he
  exact {
    bound := fun i e he => ho.bound i e (hold i e he)
    describes := fun i e he => (ho.describes i e (hold i e he)).setHandle _
    exclusive := fun i j e f he hf => ho.exclusive i j e f (hold i e he) (hold j f hf) }

/-! ### The calls -/

/-- The call returns what the file system of one directory returns, when the memory grants `grant`. -/
def Simulates (k : ℕ) (region : ℕ × ℕ × ℕ) (s : Sys) (a : Act) : Prop :=
  ∃ res s' grant, call k s a = some (res, s') ∧ Inv k region s' ∧ s.files.apply grant a = (res, s'.files) ∧
    ∀ p ∈ grant, p ∉ s.fs.list ∧ p ≠ s.fs.root

theorem Inv.move (hi : Inv k region s) (hd : s.fds fd = some d) {pos : ℕ} (hpos : d.data ≠ s.fs.root → pos ≤ d.size) :
    Inv k region (s.setFd fd (some { d with pos := pos })) := by
  obtain ⟨hstored, ho⟩ := hi
  refine ⟨hstored, ?_⟩
  rw [files_setFd]
  have hdesc := ho.describes fd d hd
  have hmoved : Describes s.files { d with pos := pos } := {
    size := hdesc.size
    path := hdesc.path
    file := fun hne => ⟨(hdesc.file hne).1, hpos hne, (hdesc.file hne).2.2⟩ }
  refine ho.set rfl rfl (ho.bound fd d hd) (hmoved.setHandle _) (fun i e _ he => (ho.describes i e he).setHandle _)
    fun i e hi he hdata => ?_
  by_contra hne
  exact hi (ho.exclusive i fd e d he hd hdata fun h => hne (hdata.symm.trans h))

theorem sim_close (hi : Inv k region s) : Simulates k region s (.close fd) := by
  refine ⟨_, _, none, rfl, ⟨hi.1, ?_⟩, ?_, by simp⟩
  · rw [files_setFd]
    exact hi.2.close
  · rw [files_setFd]
    rfl

theorem sim_stat (hk : k ≤ 30) (hi : Inv k region s) (ha : Allowed k s (.stat path)) :
    Simulates k region s (.stat path) := by
  obtain ⟨live, hs⟩ := hi.1
  rw [Simulates, call, dfsRamfsStat, hs.lookup ha.1.zero_notMem]
  cases hfind : s.files.find path with
  | none => exact ⟨_, _, none, rfl, hi, by simp [Files.apply, hfind], by simp⟩
  | some p =>
    refine ⟨_, _, none, rfl, hi, ?_, by simp⟩
    simp only [Files.apply, hfind]
    rw [length_text hk hs (Or.inl (files_find_mem ha.2 hfind).1)]

theorem Inv.onFile (hi : Inv k region s) (hd : s.fds fd = some d) (hne : d.data ≠ s.fs.root) :
    d.data ∈ s.fs.list ∧ d.pos ≤ d.size ∧ d.size = (s.fs.dirent d.data).size ∧
      s.files.text d.data = s.fs.bytes d.data := by
  have hdesc := hi.2.describes fd d hd
  obtain ⟨hsome, hpos, -⟩ := hdesc.file hne
  have hmem : d.data ∈ s.fs.list := by
    by_contra hnot
    rw [files_content, content_of_notMem hnot] at hsome
    cases hsome
  have htext : s.files.text d.data = s.fs.bytes d.data := by
    rw [Files.text, files_content, content_of_mem hmem, Option.getD_some]
  exact ⟨hmem, hpos, by rw [hdesc.size, htext, length_bytes], htext⟩

theorem sim_read {len : ℕ} (hk : k ≤ 30) (hi : Inv k region s) (ha : Allowed k s (.read fd len)) :
    Simulates k region s (.read fd len) := by
  obtain ⟨d, hd, hne⟩ := ha
  obtain ⟨hmem, hpos, hsize, htext⟩ := hi.onFile hd hne
  obtain ⟨live, hs⟩ := hi.1
  have hlt := hs.size_lt hk hmem
  have hsub : sub 32 d.size d.pos = d.size - d.pos := sub_of_le hpos (by omega)
  have hread : dfsRamfsRead s.fs d len = (((s.files.text d.data).drop d.pos).take len,
      { d with pos := d.pos + (((s.files.text d.data).drop d.pos).take len).length }) := by
    rw [dfsRamfsRead, hsub, htext, DfsRamfs.bytes, ← hsize, drop_slice]
    by_cases hlen : len < d.size - d.pos
    · rw [if_pos hlen, take_slice _ _ hlen.le, length_slice]
    · rw [if_neg hlen, List.take_of_length_le (by rw [length_slice]; omega), length_slice]
  rw [Simulates, call, Option.mem_def.mp hd, Option.map_some, hread]
  refine ⟨_, _, none, rfl, hi.move hd fun _ => ?_, ?_, by simp⟩
  · rw [List.length_take, List.length_drop, htext, length_bytes, ← hsize]
    omega
  · rw [files_setFd, Files.apply, files_handle hd]
    rfl

theorem offT_of_lt {n : ℕ} (h : n < 2 ^ 31) : offT n = n := if_pos h

theorem Inv.size_lt (hk : k ≤ 30) (hi : Inv k region s) (hd : s.fds fd = some d) : d.size < 2 ^ 31 := by
  obtain ⟨live, hs⟩ := hi.1
  by_cases hne : d.data = s.fs.root
  · rw [(hi.2.describes fd d hd).size, hne, length_text hk hs (Or.inr rfl), hs.root_size]
    decide
  · obtain ⟨hmem, -, hsize, -⟩ := hi.onFile hd hne
    exact hsize ▸ hs.size_lt hk hmem

theorem sim_lseek {offset : ℤ} {whence : Whence} (hk : k ≤ 30) (hi : Inv k region s)
    (ha : Allowed k s (.lseek fd offset whence)) : Simulates k region s (.lseek fd offset whence) := by
  obtain ⟨d, hd, -⟩ := ha
  have hsize := (hi.2.describes fd d hd).size
  have happly : s.files.apply none (.lseek fd offset whence) =
      s.files.seek fd d.handle (seekTarget d offset whence) := by
    rw [Files.apply, files_handle hd]
    cases whence with
    | set => rfl
    | cur => rfl
    | stop =>
      rw [seekTarget, hsize]
      rfl
  rw [Simulates, call, Option.mem_def.mp hd, Option.map_some, dfsRamfsLseek, offT_of_lt (hi.size_lt hk hd)]
  generalize seekTarget d offset whence = target at happly ⊢
  have hlen : (s.files.text d.handle.inode).length = d.size := hsize.symm
  rw [Files.seek, hlen] at happly
  by_cases hneg : target < 0
  · rw [if_pos hneg] at happly ⊢
    exact ⟨_, _, none, rfl, hi, happly, by simp⟩
  · rw [if_neg hneg] at happly ⊢
    have hnat : (target.toNat : ℤ) = target := Int.toNat_of_nonneg (by omega)
    by_cases hle : target ≤ d.size
    · rw [if_neg (by omega)] at happly
      rw [hnat, if_pos hle]
      refine ⟨_, _, none, rfl, hi.move hd fun _ => by omega, ?_, by simp⟩
      rw [happly, files_setFd]
      rfl
    · rw [if_pos (by omega)] at happly
      rw [hnat, if_neg hle]
      exact ⟨_, _, none, rfl, hi, happly, by simp⟩

theorem getdentsLoop_eq {fs : DfsRamfs} {finish index pos : ℕ} {list : List ℕ} (hi : index ≤ pos) (hp : pos ≤ finish) :
    getdentsLoop fs finish index pos list =
      (((list.drop (pos - index)).take (finish - pos)).map fun p => nameOf (fs.dirent p).name,
        pos + ((list.drop (pos - index)).take (finish - pos)).length) := by
  induction list generalizing index pos with
  | nil => simp [getdentsLoop]
  | cons p ps ih =>
    rw [getdentsLoop]
    by_cases hend : finish ≤ index
    · rw [if_pos hend, show finish - pos = 0 by omega]
      simp
    · rw [if_neg hend]
      by_cases hreached : pos ≤ index
      · rw [if_pos hreached, ih (by omega) (by omega), show pos + 1 - (index + 1) = 0 by omega,
          show pos - index = 0 by omega, show finish - pos = finish - (pos + 1) + 1 by omega, List.drop_zero,
          List.drop_zero, List.take_succ_cons, List.map_cons, List.length_cons]
        simp only [Prod.mk.injEq, true_and]
        omega
      · rw [if_neg hreached, ih (by omega) hp, show pos - index = pos - (index + 1) + 1 by omega, List.drop_succ_cons]

theorem sim_getdents {nbytes : ℕ} (hi : Inv k region s) (ha : Allowed k s (.getdents fd nbytes)) :
    Simulates k region s (.getdents fd nbytes) := by
  obtain ⟨d, hd⟩ := Option.isSome_iff_exists.mp ha
  rw [Simulates, call, hd, Option.map_some, dfsRamfsGetdents]
  by_cases hroot : d.data = s.fs.root
  · rw [if_neg fun h => h hroot]
    by_cases hcount : nbytes / sizeofDirent = 0
    · rw [if_pos hcount]
      exact ⟨_, _, none, rfl, hi, by rw [Files.apply, files_handle hd]; simp [hcount], by simp⟩
    · rw [if_neg hcount, getdentsLoop_eq (Nat.zero_le _) (Nat.le_add_right _ _), Nat.sub_zero, Nat.add_sub_cancel_left]
      refine ⟨_, _, none, rfl, hi.move hd fun h => absurd hroot h, ?_, by simp⟩
      have hnames : (s.files.entries.map Prod.fst) = s.fs.list.map fun p => nameOf (s.fs.dirent p).name := by
        rw [files_entries, DfsRamfs.entries, List.map_map]
        rfl
      have hcall : ¬(d.handle.inode ≠ s.files.root ∨ nbytes / sizeofDirent = 0) := fun h =>
        h.elim (fun h => h hroot) hcount
      rw [Files.apply, files_handle hd, files_setFd]
      simp only [if_neg hcall, hnames, ← List.map_drop, ← List.map_take, List.length_map]
      rfl
  · rw [if_pos hroot]
    exact ⟨_, _, none, rfl, hi, by rw [Files.apply, files_handle hd]; simp [DfsFd.handle, hroot], by simp⟩

theorem exists_fresh (list : List ℕ) (root : ℕ) : ∃ p, p ∉ list ∧ p ≠ root := by
  obtain ⟨p, hp⟩ := Infinite.exists_notMem_finset (root :: list).toFinset
  rw [List.mem_toFinset, List.mem_cons, not_or] at hp
  exact ⟨p, hp.2, hp.1⟩

theorem sim_write {buf : List (BitVec 8)} (hk : k ≤ 30) (hi : Inv k region s) (ha : Allowed k s (.write fd buf)) :
    Simulates k region s (.write fd buf) := by
  obtain ⟨d, hd, hne, hroom⟩ := ha
  obtain ⟨hmem, hpos, hsize, htext⟩ := hi.onFile hd hne
  obtain ⟨⟨live, hs⟩, ho⟩ := hi
  obtain ⟨n, d', fs', live', hrun, hs', hcases⟩ := hs.write hk hmem hsize hpos hroom
  have hlen : (s.files.text d.handle.inode).length = d.size := (ho.describes fd d hd).size.symm
  rw [Simulates, call, Option.mem_def.mp hd, Option.bind_some, hrun, Option.map_some]
  obtain ⟨hgrow, rfl, rfl, hshows⟩ | hwrote := hcases
  · -- no room
    have hfiles : (s.withFs fs').files = s.files := files_withFs hshows
    have hself : (s.withFs fs').setFd fd (some d') = s.withFs fs' := by
      rw [Sys.setFd, withFs_fds, ← Option.mem_def.mp hd, Function.update_eq_self]
      rfl
    show ∃ res s₁ grant, some (Result.count 0, (s.withFs fs').setFd fd (some d')) = some (res, s₁) ∧ _
    rw [hself]
    refine ⟨_, _, none, rfl, ⟨⟨live', hs'⟩, hfiles ▸ ho⟩, ?_, by simp⟩
    rw [Files.apply, files_handle hd]
    rw [hfiles]
    exact if_pos ⟨hlen ▸ hgrow, rfl⟩
  · obtain ⟨rfl, rfl, hshows⟩ := hwrote
    obtain ⟨q, hq⟩ := exists_fresh s.fs.list s.fs.root
    rw [← htext] at hshows
    have hfiles : (s.withFs fs').files =
        s.files.setContent d.data (some (splice (s.files.text d.data) d.pos buf)) := files_withFs hshows
    have hother : ∀ i e, i ≠ fd → s.fds i = some e → e.data ≠ d.data := fun i e hi he hdata =>
      hi (ho.exclusive i fd e d he hd hdata fun h => hne (hdata.symm.trans h))
    refine ⟨_, (s.withFs fs').setFd fd _, some q, rfl, ⟨⟨live', hs'⟩, ?_⟩, ?_, by simpa using hq⟩
    · rw [files_setFd, hfiles]
      refine ho.set rfl rfl (ho.bound fd d hd) (Describes.setHandle ?_ _)
        (fun i e hi he => Describes.setHandle ?_ _) fun i e hi he hdata => absurd hdata (hother i e hi he)
      · exact (ho.describes fd d hd).written hpos
      · exact (ho.describes i e he).keep rfl (Function.update_of_ne (hother i e hi he) _ _) fun name hmem =>
          ⟨name, hmem, Or.inl rfl⟩
    · rw [Files.apply, files_handle hd, files_setFd, hfiles]
      simp only [reduceCtorEq, and_false, if_false]
      rfl

theorem isOpen_iff : s.isOpen path = true ↔ s.files.isOpen path := by
  simp only [Sys.isOpen, Files.isOpen, List.any_eq_true, List.mem_range, Option.any_eq_true, decide_eq_true_iff,
    files_handle_eq, Option.map_eq_some_iff]
  constructor
  · rintro ⟨i, hi, d, hd, hpath⟩
    exact ⟨i, hi, d.handle, ⟨d, hd, rfl⟩, hpath⟩
  · rintro ⟨i, hi, _, ⟨d, hd, rfl⟩, hpath⟩
    exact ⟨i, hi, d, hd, hpath⟩

theorem Opened.not_found (ho : Opened s.files s.fds) (hpath : Subpath path)
    (hname : (strip path, p) ∈ s.files.entries) (hp : p ≠ s.fs.root) (hopen : ¬s.files.isOpen path) {i : ℕ} {e : DfsFd}
    (he : s.fds i = some e) : e.data ≠ p := by
  rintro rfl
  have hdesc := ho.describes i e he
  obtain ⟨-, -, name, hmem, hcases⟩ := hdesc.file hp
  -- the node has one name
  have hsame : name = strip path := by
    obtain ⟨a, -, ha⟩ := List.mem_map.mp hname
    obtain ⟨b, -, hb⟩ := List.mem_map.mp hmem
    obtain ⟨ha₁, ha₂⟩ := Prod.mk.inj ha
    obtain ⟨hb₁, hb₂⟩ := Prod.mk.inj hb
    rw [← ha₁, ← hb₁, ha₂, hb₂]
  subst hsame
  have hstrip := hpath.strip_eq
  obtain hpath' | hslash := hcases
  · refine hopen ⟨i, ho.bound i e he, e.handle, files_handle he, ?_⟩
    show e.path = path
    rw [hstrip.1, hpath', ← hdesc.path.strip_eq.1]
  · exact hstrip.2 hslash

theorem sim_unlink (hk : k ≤ 30) (hi : Inv k region s) (ha : Allowed k s (.unlink path)) :
    Simulates k region s (.unlink path) := by
  obtain ⟨hpath, hne⟩ := ha
  obtain ⟨⟨live, hs⟩, ho⟩ := hi
  rw [Simulates, call]
  by_cases hopen : s.files.isOpen path
  · rw [if_pos (isOpen_iff.mpr hopen)]
    exact ⟨_, _, none, rfl, ⟨⟨live, hs⟩, ho⟩, by rw [Files.apply, if_pos hopen], by simp⟩
  · rw [if_neg fun h => hopen (isOpen_iff.mp h), dfsRamfsUnlink, hs.lookup hpath.zero_notMem, Option.bind_some]
    cases hfind : s.files.find path with
    | none => exact ⟨_, _, none, rfl, ⟨⟨live, hs⟩, ho⟩, by rw [Files.apply, if_neg hopen, hfind]; rfl, by simp⟩
    | some p =>
      obtain ⟨hmem, hname⟩ := files_find_mem hne hfind
      obtain ⟨pool, live', hrun, hs', hshows⟩ := hs.unlink hk hmem
      have hroot : p ≠ s.fs.root := fun h => hs.root_notMem hk (h ▸ hmem)
      have hfiles := files_withFs (s := s) hshows
      simp only [hrun, Option.map_some]
      refine ⟨_, s.withFs ((s.fs.withPool pool).unlink p), none, rfl, ⟨⟨live', hs'⟩, ?_⟩, ?_, by simp⟩
      · rw [hfiles]
        refine ho.keep rfl rfl fun i e he => ?_
        have hother := ho.not_found hpath hname hroot hopen he
        exact (ho.describes i e he).keep rfl (Function.update_of_ne hother _ _) fun name hm =>
          ⟨name, List.mem_filter.mpr ⟨hm, by simpa using hother⟩, Or.inl rfl⟩
      · rw [Files.apply, if_neg hopen, hfind, hfiles]
        rfl

theorem sim_rename {old new : Path} (hk : k ≤ 30) (hi : Inv k region s) (ha : Allowed k s (.rename old new)) :
    Simulates k region s (.rename old new) := by
  obtain ⟨hold, hne, hnew, hlen⟩ := ha
  obtain ⟨⟨live, hs⟩, ho⟩ := hi
  rw [Simulates, call, dfsRamfsRename, hs.lookup hnew.zero_notMem, Option.bind_some, hs.lookup hold.zero_notMem]
  cases hfound : s.files.find new with
  | some p => exact ⟨_, _, none, rfl, ⟨⟨live, hs⟩, ho⟩, by rw [Files.apply, hfound]; rfl, by simp⟩
  | none =>
    cases hfind : s.files.find old with
    | none => exact ⟨_, _, none, rfl, ⟨⟨live, hs⟩, ho⟩, by rw [Files.apply, hfound, hfind]; rfl, by simp⟩
    | some p =>
      obtain ⟨hmem, hname⟩ := files_find_mem hne hfind
      obtain ⟨hs', hshows⟩ := hs.rename hk hmem hnew.zero_notMem hlen
      have hfiles := files_withFs (s := s) hshows
      refine ⟨_, s.withFs _, none, rfl, ⟨⟨live, hs'⟩, ?_⟩, ?_, by simp⟩
      · rw [hfiles]
        refine ho.keep rfl rfl fun i e he => ?_
        refine (ho.describes i e he).keep rfl rfl fun name hm => ?_
        by_cases hp : e.data = p
        · refine ⟨new, List.mem_map.mpr ⟨_, hm, ?_⟩, Or.inr ?_⟩
          · rw [if_pos hp, hp]
          · rw [hnew.strip_eq.1]
            rfl
        · exact ⟨name, List.mem_map.mpr ⟨_, hm, if_neg hp⟩, Or.inl rfl⟩
      · rw [Files.apply, hfound, hfind, hfiles]
        rfl

/-- The content after the flag `O_TRUNC`. -/
def truncated (flags : BitVec 32) (content : ℕ → Option (List (BitVec 8))) (p : ℕ) : ℕ → Option (List (BitVec 8)) :=
  if has flags oDirectory = false ∧ has flags oTrunc = true then Function.update content p (some []) else content

theorem truncated_of_ne {content : ℕ → Option (List (BitVec 8))} {q : ℕ} (h : q ≠ p) :
    truncated flags content p q = content q := by
  rw [truncated]
  split
  · exact Function.update_of_ne h _ _
  · rfl

theorem attach_spec (hk : k ≤ 30) (hs : Stored k region s.fs live)
    (hp : p ∈ s.fs.list ∨ has flags oDirectory = true ∧ p = s.fs.root) :
    ∃ fs' live',
      (if has flags oDirectory = false ∧ has flags oTrunc = true then truncateDirent k s.fs p else some s.fs) =
        some fs' ∧ Stored k region fs' live' ∧
      Shows fs' s.fs.root s.fs.entries (truncated flags s.fs.content p) ∧
      (fs'.dirent p).size = ((s.withFs fs').files.text p).length := by
  by_cases htrunc : has flags oDirectory = false ∧ has flags oTrunc = true
  · have hmem : p ∈ s.fs.list := hp.resolve_right fun h => by
      rw [htrunc.1] at h
      cases h.1
    obtain ⟨fs', live', hrun, hs', hlist, hshows⟩ := hs.truncateDirent hk hmem
    rw [if_pos htrunc, truncated, if_pos htrunc]
    exact ⟨fs', live', hrun, hs', hshows, (length_text (s := s.withFs fs') hk hs' (Or.inl (hlist ▸ hmem))).symm⟩
  · rw [if_neg htrunc, truncated, if_neg htrunc]
    exact ⟨s.fs, live, rfl, hs, ⟨rfl, rfl, rfl⟩, (length_text hk hs (hp.imp_right And.right)).symm⟩

theorem finish_open (flags : BitVec 32) (hk : k ≤ 30) (hs : Stored k region s.fs live) (ho : Opened s.files s.fds)
    (hfd : fd < s.maxfd) (hpath : Subpath path)
    (hp : p ∈ s.fs.list ∧ (strip path, p) ∈ s.fs.entries ∨ has flags oDirectory = true ∧ p = s.fs.root)
    (hclosed : ∀ i e, s.fds i = some e → e.data ≠ s.fs.root → e.data ≠ p) :
    ∃ d fs', (if has flags oDirectory = false ∧ has flags oTrunc = true then truncateDirent k s.fs p else some s.fs) =
        some fs' ∧
      d = ⟨path, flags, p, (fs'.dirent p).size, if has flags oAppend = true then (fs'.dirent p).size else 0⟩ ∧
      Inv k region ((s.withFs fs').setFd fd (some d)) ∧
      ((s.withFs fs').setFd fd (some d)).files =
        (⟨s.fs.root, s.maxfd, s.fs.entries, truncated flags s.fs.content p, s.files.handle⟩ : Files).attach fd path flags
          p := by
  obtain ⟨fs', live', hrun, hs', hshows, hsize⟩ := attach_spec hk hs (hp.imp_left And.left)
  have hfiles := files_withFs (s := s) hshows
  refine ⟨_, fs', hrun, rfl, ⟨⟨live', hs'⟩, ?_⟩, ?_⟩
  · have hcontent : ∀ i e, s.fds i = some e → truncated flags s.fs.content p e.data = s.fs.content e.data :=
      fun i e he => by
        obtain ⟨hmem, -⟩ | ⟨hdir, -⟩ := hp
        · refine truncated_of_ne ?_
          by_cases hroot : e.data = s.fs.root
          · exact fun h => hs.root_notMem hk (hroot ▸ h ▸ hmem)
          · exact hclosed i e he hroot
        · rw [truncated, hdir, if_neg fun h => by cases h.1]
    have hothers : ∀ i e, s.fds i = some e → Describes (s.withFs fs').files e := fun i e he => by
      rw [hfiles]
      exact (ho.describes i e he).keep rfl (hcontent i e he) fun name hmem => ⟨name, hmem, Or.inl rfl⟩
    have hself : Describes (s.withFs fs').files
        ⟨path, flags, p, (fs'.dirent p).size, if has flags oAppend = true then (fs'.dirent p).size else 0⟩ := by
      refine ⟨hsize, hpath, fun hne => ?_⟩
      rw [hfiles] at hne ⊢
      obtain ⟨hmem, hname⟩ := hp.resolve_right fun h => hne h.2
      refine ⟨?_, ?_, _, hname, Or.inl rfl⟩
      · simp only [truncated]
        split
        · rw [Function.update_self, Option.isSome_some]
        · rw [content_of_mem hmem, Option.isSome_some]
      · simp only
        split <;> omega
    have hroot : (s.withFs fs').files.root = s.files.root := by rw [hfiles, files_root]
    rw [files_setFd]
    refine ho.set hroot rfl hfd (hself.setHandle _) (fun i e _ he => (hothers i e he).setHandle _)
      fun i e _ he hdata => ?_
    by_contra hne
    exact hclosed i e he (fun h => hne (hdata.symm.trans h)) hdata
  · rw [files_setFd, Files.attach, hsize, hfiles]
    rfl

theorem find_cases (h : s.files.find path = some p) :
    p ∈ s.fs.list ∧ (strip path, p) ∈ s.fs.entries ∨ p = s.fs.root := by
  by_cases hroot : strip path = []
  · rw [Files.find, if_pos hroot, Option.some.injEq] at h
    exact Or.inr h.symm
  · exact Or.inl (files_find_mem hroot h)

theorem sim_opens_directory (hk : k ≤ 30) (hi : Inv k region s) (ha : Allowed k s (.opens fd path flags))
    (hdir : has flags oDirectory = true) : Simulates k region s (.opens fd path flags) := by
  obtain ⟨hfd, -, hpath, -, hclosed⟩ := ha
  obtain ⟨⟨live, hs⟩, ho⟩ := hi
  rw [Simulates, call, dfsRamfsOpen, openDirent, if_pos hdir]
  by_cases hcreat : has flags oCreat = true
  · rw [if_pos hcreat]
    exact ⟨_, s, none, rfl, ⟨⟨live, hs⟩, ho⟩, by
      rw [Files.apply, if_pos hdir, Files.opensDirectory, if_pos hcreat], by simp⟩
  · rw [if_neg hcreat, hs.lookup hpath.zero_notMem]
    cases hfind : s.files.find path with
    | none =>
      exact ⟨_, s, none, rfl, ⟨⟨live, hs⟩, ho⟩, by
        rw [Files.apply, if_pos hdir, Files.opensDirectory, if_neg hcreat, hfind], by simp⟩
    | some p =>
      obtain ⟨d, fs', hrun, hd, hinv, hfiles⟩ := finish_open flags hk hs ho hfd hpath
        ((find_cases hfind).imp_right fun h => ⟨hdir, h⟩)
        fun i e he hne h => hclosed i (ho.bound i e he) e he hne (h ▸ hfind)
      simp only [Option.map_some, Option.bind_some, hrun]
      refine ⟨.done, (s.withFs fs').setFd fd (some d), none, by rw [hd]; rfl, hinv, ?_, by simp⟩
      rw [Files.apply, if_pos hdir, Files.opensDirectory, if_neg hcreat, hfind, hfiles, truncated, hdir,
        if_neg fun h => by cases h.1]
      rfl

theorem sim_opens_file (hk : k ≤ 30) (hi : Inv k region s) (ha : Allowed k s (.opens fd path flags))
    (hdir : ¬has flags oDirectory = true) : Simulates k region s (.opens fd path flags) := by
  obtain ⟨hfd, -, hpath, hlen, hclosed⟩ := ha
  obtain ⟨⟨live, hs⟩, ho⟩ := hi
  have hfile : has flags oDirectory = false := Bool.eq_false_of_not_eq_true hdir
  rw [Simulates, call, dfsRamfsOpen, openDirent, if_neg hdir, hs.lookup hpath.zero_notMem, Option.bind_some]
  cases hfind : s.files.find path with
  | some p =>
    by_cases hroot : p = s.fs.root
    · simp only [if_pos hroot, Option.bind_some]
      refine ⟨_, s, none, rfl, ⟨⟨live, hs⟩, ho⟩, ?_, by simp⟩
      rw [Files.apply, if_neg hdir, Files.opensFile, hfind]
      exact if_pos hroot
    · obtain ⟨d, fs', hrun, hd, hinv, hfiles⟩ := finish_open flags hk hs ho hfd hpath
        (Or.inl ((find_cases hfind).resolve_right hroot))
        fun i e he hne h => hclosed i (ho.bound i e he) e he hne (h ▸ hfind)
      simp only [if_neg hroot, Option.bind_some, hrun]
      refine ⟨.done, (s.withFs fs').setFd fd (some d), none, by rw [hd]; rfl, hinv, ?_, by simp⟩
      rw [Files.apply, if_neg hdir, Files.opensFile, hfind, hfiles]
      refine (if_neg hroot).trans ?_
      by_cases htrunc : has flags oTrunc = true
      · rw [if_pos htrunc, truncated, if_pos ⟨hfile, htrunc⟩]
        rfl
      · rw [if_neg htrunc, truncated, if_neg fun h => htrunc h.2]
        rfl
  | none =>
    by_cases hcreate : has flags oCreat = true ∨ has flags oWronly = true
    · obtain ⟨found, fs₁, live₁, hrun₁, hs₁, hfound⟩ := hs.createDirent hk hpath.zero_notMem hlen
      simp only [if_pos hcreate, hrun₁, Option.map_some, Option.bind_some]
      cases found with
      | none =>
        have hfiles : (s.withFs fs₁).files = s.files := files_withFs hfound
        refine ⟨_, s.withFs fs₁, none, rfl, ⟨⟨live₁, hs₁⟩, hfiles ▸ ho⟩, ?_, by simp⟩
        simp only [Files.apply, if_neg hdir, Files.opensFile, hfind, if_pos hcreate, hfiles]
      | some p =>
        obtain ⟨hfresh, hroot, hmem, hshows⟩ := hfound
        have hfiles₁ : (s.withFs fs₁).files = s.files.create path p := files_withFs hshows
        have hother : ∀ i e, s.fds i = some e → e.data ≠ p := fun i e he h => by
          obtain ⟨hsome, -⟩ := (ho.describes i e he).file fun hr => hroot (h.symm.trans hr)
          rw [h, files_content, content_of_notMem hfresh] at hsome
          cases hsome
        have ho₁ : Opened (s.withFs fs₁).files (s.withFs fs₁).fds := by
          rw [hfiles₁]
          exact ho.keep rfl rfl fun i e he => (ho.describes i e he).keep rfl (Function.update_of_ne (hother i e he) _ _)
            fun name hname => ⟨name, List.mem_cons_of_mem _ hname, Or.inl rfl⟩
        have hname : (strip path, p) ∈ (s.withFs fs₁).fs.entries := by
          rw [withFs_fs, hshows.entries]
          exact List.mem_cons_self
        obtain ⟨d, fs', hrun, hd, hinv, hfiles⟩ := finish_open (s := s.withFs fs₁) flags hk hs₁ ho₁ hfd hpath
          (Or.inl ⟨hmem, hname⟩) fun i e he _ => hother i e he
        simp only [withFs_fs] at hrun
        simp only [hrun]
        refine ⟨.done, (s.withFs fs').setFd fd (some d), some p, by rw [hd]; rfl, hinv, ?_,
          by simpa using ⟨hfresh, hroot⟩⟩
        rw [Files.apply, if_neg hdir, Files.opensFile, hfind]
        refine (if_pos hcreate).trans ?_
        have hempty : truncated flags fs₁.content p = fs₁.content := by
          rw [truncated]
          split
          · rw [Function.update_eq_self_iff, hshows.content, Function.update_self]
          · rfl
        have hsame : ((s.withFs fs').setFd fd (some d)).files = (s.withFs fs₁).files.attach fd path flags p :=
          hfiles.trans (by rw [withFs_fs, hempty]; rfl)
        rw [hsame, hfiles₁]
    · simp only [if_neg hcreate, Option.bind_some]
      exact ⟨_, s, none, rfl, ⟨⟨live, hs⟩, ho⟩, by
        simp only [Files.apply, if_neg hdir, Files.opensFile, hfind, if_neg hcreate], by simp⟩

theorem sim_opens (hk : k ≤ 30) (hi : Inv k region s) (ha : Allowed k s (.opens fd path flags)) :
    Simulates k region s (.opens fd path flags) := by
  by_cases hdir : has flags oDirectory = true
  · exact sim_opens_directory hk hi ha hdir
  · exact sim_opens_file hk hi ha hdir

theorem step_simulates (hk : k ≤ 30) (hi : Inv k region s) {a : Act} (ha : Allowed k s a) : Simulates k region s a := by
  cases a with
  | opens fd path flags => exact sim_opens hk hi ha
  | close fd => exact sim_close hi
  | read fd len => exact sim_read hk hi ha
  | write fd buf => exact sim_write hk hi ha
  | lseek fd offset whence => exact sim_lseek hk hi ha
  | getdents fd nbytes => exact sim_getdents hi ha
  | unlink path => exact sim_unlink hk hi ha
  | rename old new => exact sim_rename hk hi ha
  | stat path => exact sim_stat hk hi ha

/-! ### Runs -/

variable {offs : Offsets} {pool size maxfd : ℕ}

theorem heapSize_le (k : ℕ) (offs : Offsets) (size : ℕ) : offs.sizeofDfsRamfs + heapSize k offs size ≤ size ∨
    heapSize k offs size = 0 := by
  have hdown := Nat.div_mul_le_self size (2 ^ k)
  have hdown' := Nat.div_mul_le_self (size / 2 ^ k * 2 ^ k - offs.sizeofDfsRamfs) (2 ^ k)
  rw [← heapSize] at hdown'
  omega

/-- Where the heap lies behind the object at `pool`. -/
def regionOf (k : ℕ) (offs : Offsets) (pool size : ℕ) : ℕ × ℕ × ℕ :=
  (pool + offs.sizeofDfsRamfs, heapSize k offs size, pool + offs.freeHeader)

theorem create_region (mem : Lib.Bytes.Mem) :
    (dfsRamfsCreate k offs mem pool size).pool.heap.region = regionOf k offs pool size := by
  have hdown : heapSize k offs size / 2 ^ k * 2 ^ k = heapSize k offs size :=
    Nat.div_mul_cancel (Nat.dvd_mul_left _ _)
  rw [dfsRamfsCreate, init_region, hdown, regionOf]

theorem create_stored (hk : k ≤ 30) (mem : Lib.Bytes.Mem) (hbound : pool + size ≤ 2 ^ 32) (hsmall : size < 2 ^ 31)
    (hroom : 2 * memheapSize k ≤ heapSize k offs size) :
    Stored k (regionOf k offs pool size) (dfsRamfsCreate k offs mem pool size) fun _ => none := by
  have hH := (memheapSize_spec hk).1
  have hle := (heapSize_le k offs size).resolve_right (by omega)
  have hheader := offs.header_fits
  have hroot := offs.root_fits
  have hdown : heapSize k offs size / 2 ^ k * 2 ^ k = heapSize k offs size :=
    Nat.div_mul_cancel (Nat.dvd_mul_left _ _)
  have hregion := @create_region k offs pool size mem
  have hregion' := hregion
  simp only [Memheap.region, regionOf, Prod.mk.injEq] at hregion'
  obtain ⟨hstart, -, hfree⟩ := hregion'
  exact {
    owned := {
      good := init_good hk (by omega) (by omega) (by rwa [hdown]) (Or.inl (by simp only; omega))
      outside := by
        rw [HeaderOutside, hstart, hfree]
        omega }
    blocks := by constructor <;> simp [dfsRamfsCreate]
    heap := hregion
    small := by
      show heapSize k offs size < 2 ^ 31
      omega
    named := fun p hp => by cases hp
    root_low := by
      show pool + offs.root < pool + offs.sizeofDfsRamfs
      rw [sizeofRamfsDirent] at hroot
      omega
    root_size := rfl }

theorem init_inv (hk : k ≤ 30) (mem : Lib.Bytes.Mem) (hbound : pool + size ≤ 2 ^ 32) (hsmall : size < 2 ^ 31)
    (hroom : 2 * memheapSize k ≤ heapSize k offs size) :
    Inv k (regionOf k offs pool size) (init k offs mem pool size maxfd) :=
  ⟨⟨_, create_stored hk mem hbound hsmall hroom⟩, by constructor <;> simp [init]⟩

theorem run_inv (hk : k ≤ 30) {s₀ : Sys} (h₀ : Inv k region s₀) {acts : List Act}
    (hallowed : AllSteps (step k) (Allowed k) s₀ acts) (hrun : exec (step k) s₀ acts = some s) : Inv k region s := by
  refine exec_inv_of_allSteps (Inv k region) (Allowed k) (fun s a s' hi ha hstep => ?_) h₀ hallowed hrun
  obtain ⟨res, s₁, grant, hcall, hi₁, -⟩ := step_simulates hk hi ha
  rw [step, hcall, Option.map_some, Option.some.injEq] at hstep
  exact hstep ▸ hi₁

/-- The file system of one directory without any files. -/
def Files.empty (root maxfd : ℕ) : Files := ⟨root, maxfd, [], fun _ => none, fun _ => none⟩

/-- A new RAM file system stands for the empty one, and in every run that keeps to the conditions, each such call
returns, and gives the result and the files that the file system of one directory gives, where the memory grants a new
inode or has no room. -/
theorem ramfs_refines_files (hk : k ≤ 30) (mem : Lib.Bytes.Mem) (hbound : pool + size ≤ 2 ^ 32) (hsmall : size < 2 ^ 31)
    (hroom : 2 * memheapSize k ≤ heapSize k offs size) {acts : List Act}
    (hallowed : AllSteps (step k) (Allowed k) (init k offs mem pool size maxfd) acts)
    (hrun : exec (step k) (init k offs mem pool size maxfd) acts = some s) :
    (init k offs mem pool size maxfd).files = Files.empty (pool + offs.root) maxfd ∧
      ∀ a, Allowed k s a →
        ∃ res s' grant, call k s a = some (res, s') ∧ s.files.apply grant a = (res, s'.files) ∧
          ∀ p ∈ grant, s.files.content p = none ∧ p ≠ s.files.root := by
  have hi := run_inv hk (init_inv hk mem hbound hsmall hroom) hallowed hrun
  refine ⟨?_, fun a ha => ?_⟩
  · have hcontent : (dfsRamfsCreate k offs mem pool size).content = fun _ => none :=
      funext fun p => content_of_notMem (by simp [dfsRamfsCreate])
    rw [Sys.files, init, hcontent]
    rfl
  · obtain ⟨res, s', grant, hcall, -, happly, hfresh⟩ := step_simulates hk hi ha
    exact ⟨res, s', grant, hcall, happly, fun p hp => ⟨content_of_notMem (hfresh p hp).1, (hfresh p hp).2⟩⟩

/-- A file system in 1024 bytes with two descriptors. -/
def sampleInit : Sys := init 2 ⟨4, 60, 84, 136, by decide, by decide⟩ (fun _ => 0) 0x20000000 1024 2

/-- Three bytes are written into a new file, and the last two over again by four. -/
def sampleRun : List Act :=
  [.opens 0 ['/', 'a'] (oCreat ||| oWronly), .write 0 [1, 2, 3], .lseek 0 1 .set, .write 0 [7, 8, 9, 10], .close 0,
    .opens 1 ['/', 'a'] 0]

theorem ramfs_refines_files_sample :
    ∃ s, exec (step 2) sampleInit sampleRun = some s ∧ Allowed 2 s (.read 1 4) ∧
      ∃ res s' grant, call 2 s (.read 1 4) = some (res, s') ∧ s.files.apply grant (.read 1 4) = (res, s'.files) ∧
        ∀ p ∈ grant, s.files.content p = none ∧ p ≠ s.files.root := by
  have hallowed : AllSteps (step 2) (Allowed 2) sampleInit sampleRun := by decide +kernel
  have hrun : ((exec (step 2) sampleInit sampleRun).map fun s => decide (Allowed 2 s (.read 1 4))) = some true := by
    decide +kernel
  obtain ⟨s, hs, ha⟩ := Option.map_eq_some_iff.mp hrun
  have hread := of_decide_eq_true ha
  exact ⟨s, hs, hread, ramfs_refines_files (by decide) (fun _ => 0) (by decide) (by decide) (by decide) hallowed hs
    |>.2 _ hread⟩

end RtThread.Dfs.Ramfs
