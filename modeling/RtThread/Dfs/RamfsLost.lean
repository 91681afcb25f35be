import RtThread.Dfs.RamfsRuns

/-!
# The memory of the files, and the files that a rename loses

The memory of a file is freed when it is unlinked, and only then. `dfs_ramfs_rename` puts the separator into the name,
and the lookup takes it off the path, so that the file is not found any more.
-/

namespace RtThread.Dfs.Ramfs

open RtThread.Lib.Flags RtThread.Lib.Transition RtThread.Lib.Word RtThread.Memory.MemHeap

variable {k p : ℕ} {region : ℕ × ℕ × ℕ} {s s' : Sys} {offs : Offsets} {pool size maxfd : ℕ}

/-- In every run that keeps to the conditions, the blocks in use of the heap are the nodes of the files and their data;
and when no file is left, all of the memory is available again. -/
theorem ramfs_memory (hk : k ≤ 30) (mem : Lib.Bytes.Mem) (hbound : pool + size ≤ 2 ^ 32) (hsmall : size < 2 ^ 31)
    (hroom : 2 * memheapSize k ≤ heapSize k offs size) {acts : List Act}
    (hallowed : AllSteps (step k) (Allowed k) (init k offs mem pool size maxfd) acts)
    (hrun : exec (step k) (init k offs mem pool size maxfd) acts = some s) :
    ∃ live blocks free, Sound k ⟨s.fs.pool.heap, live⟩ blocks free ∧
      (∀ q n, live q = some n ↔ (q ∈ s.fs.list ∧ n = sizeofRamfsDirent) ∨
        ∃ p ∈ s.fs.list, (s.fs.dirent p).data = q ∧ q ≠ 0 ∧ (s.fs.dirent p).size = n) ∧
      (s.fs.list = [] → s.fs.pool.heap.availableSize = heapSize k offs size - 2 * memheapSize k) := by
  obtain ⟨⟨live, hs⟩, -⟩ := run_inv hk (init_inv hk mem hbound hsmall hroom) hallowed hrun
  obtain ⟨blocks, free, hsound⟩ := hs.owned.good.sound hk
  refine ⟨live, blocks, free, hsound, hs.blocks.live_iff, fun hempty => ?_⟩
  have hnone : live = fun _ => none := by
    funext q
    by_contra hsome
    obtain ⟨n, hn⟩ := Option.ne_none_iff_exists'.mp hsome
    have hcases := (hs.blocks.live_iff q n).mp hn
    simp [hempty] at hcases
  have hgood := hs.owned.good
  rw [hnone] at hgood
  rw [available_of_none hk hgood, hs.poolSize]
  rfl

/-- Two files are written, one of them is renamed, and the other is removed. -/
def churnRun : List Act :=
  [.opens 0 ['/', 'a'] (oCreat ||| oWronly), .opens 1 ['/', 'b'] oCreat, .write 0 [1, 2, 3], .write 1 [4], .close 0,
    .close 1, .rename ['/', 'a'] ['/', 'c'], .unlink ['/', 'b']]

theorem ramfs_memory_sample :
    ∃ s, exec (step 2) sampleInit churnRun = some s ∧ s.fs.list.length = 1 ∧
      ∃ live blocks free, Sound 2 ⟨s.fs.pool.heap, live⟩ blocks free := by
  have hallowed : AllSteps (step 2) (Allowed 2) sampleInit churnRun := by decide +kernel
  have hrun : ((exec (step 2) sampleInit churnRun).map fun s => s.fs.list.length) = some 1 := by decide +kernel
  obtain ⟨s, hs, hlength⟩ := Option.map_eq_some_iff.mp hrun
  obtain ⟨live, blocks, free, hsound, -⟩ :=
    ramfs_memory (by decide) (fun _ => 0) (by decide) (by decide) (by decide) hallowed hs
  exact ⟨s, hs, hlength, live, blocks, free, hsound⟩

/-! ### Renamed files -/

theorem head_strip (path : Path) : (strip path).head? ≠ some '/' := by
  intro h
  have hdrop := List.head?_dropWhile_not (· == '/') path
  rw [← strip, h] at hdrop
  simp at hdrop

/-- The file at `p` has a separator in front of its name. -/
def Lost (s : Sys) (p : ℕ) : Prop := ∃ name, (name, p) ∈ s.files.entries ∧ name.head? = some '/'

theorem Lost.find_ne (h : Lost s p) (hp : p ≠ s.fs.root) (path : Path) : s.files.find path ≠ some p := by
  intro hfind
  obtain ⟨name, hmem, hhead⟩ := h
  obtain ⟨-, hname⟩ := (find_cases hfind).resolve_right hp
  obtain ⟨a, -, ha⟩ := List.mem_map.mp hname
  obtain ⟨b, -, hb⟩ := List.mem_map.mp hmem
  obtain ⟨ha₁, ha₂⟩ := Prod.mk.inj ha
  obtain ⟨hb₁, hb₂⟩ := Prod.mk.inj hb
  refine head_strip path ?_
  rw [← ha₁, ha₂, ← hb₂, hb₁]
  exact hhead

theorem opens_entries {x : Files} (grant : Option ℕ) (fd : ℕ) (path : Path) (flags : BitVec 32) {e : Path × ℕ}
    (hmem : e ∈ x.entries) : e ∈ (x.apply grant (.opens fd path flags)).2.entries := by
  rw [Files.apply]
  by_cases hdir : has flags oDirectory = true
  · rw [if_pos hdir, Files.opensDirectory]
    by_cases hcreat : has flags oCreat = true
    · rwa [if_pos hcreat]
    · rw [if_neg hcreat]
      cases x.find path <;> exact hmem
  · rw [if_neg hdir, Files.opensFile.eq_def]
    cases x.find path with
    | some p =>
      by_cases hroot : p = x.root
      · simpa only [if_pos hroot] using hmem
      · simp only [if_neg hroot]
        by_cases htrunc : has flags oTrunc = true
        · rw [if_pos htrunc]
          exact hmem
        · rw [if_neg htrunc]
          exact hmem
    | none =>
      by_cases hcreate : has flags oCreat = true ∨ has flags oWronly = true
      · simp only [if_pos hcreate]
        cases grant with
        | none => exact hmem
        | some p => exact List.mem_cons_of_mem _ hmem
      · simpa only [if_neg hcreate] using hmem

theorem seek_entries {x : Files} (fd : ℕ) (h : Handle) (target : ℤ) : (x.seek fd h target).2.entries = x.entries := by
  rw [Files.seek]
  split_ifs <;> rfl

theorem apply_entries {x : Files} (grant : Option ℕ) (a : Act) (hfind : ∀ path, x.find path ≠ some p) {name : Path}
    (hmem : (name, p) ∈ x.entries) : (name, p) ∈ (x.apply grant a).2.entries := by
  cases a with
  | opens fd path flags => exact opens_entries grant fd path flags hmem
  | close fd => exact hmem
  | read fd len =>
    rw [Files.apply]
    cases x.handle fd <;> exact hmem
  | write fd buf =>
    rw [Files.apply]
    cases x.handle fd with
    | none => exact hmem
    | some h =>
      simp only
      split_ifs <;> exact hmem
  | lseek fd offset whence =>
    rw [Files.apply]
    cases x.handle fd with
    | none => exact hmem
    | some h => cases whence <;> simpa only [seek_entries] using hmem
  | getdents fd nbytes =>
    rw [Files.apply]
    cases x.handle fd with
    | none => exact hmem
    | some h =>
      simp only
      split_ifs <;> exact hmem
  | unlink path =>
    rw [Files.apply]
    by_cases hopen : x.isOpen path
    · rwa [if_pos hopen]
    · rw [if_neg hopen]
      cases hq : x.find path with
      | none => exact hmem
      | some q =>
        have hne : p ≠ q := fun h => hfind path (h ▸ hq)
        exact List.mem_filter.mpr ⟨hmem, by simpa using hne⟩
  | rename old new =>
    rw [Files.apply]
    cases x.find new with
    | some q => exact hmem
    | none =>
      cases hq : x.find old with
      | none => exact hmem
      | some q =>
        have hne : p ≠ q := fun h => hfind old (h ▸ hq)
        exact List.mem_map.mpr ⟨_, hmem, if_neg hne⟩
  | stat path =>
    rw [Files.apply]
    cases x.find path <;> exact hmem

theorem Lost.ne_root (hk : k ≤ 30) (hi : Inv k region s) (hl : Lost s p) : p ≠ s.fs.root := by
  obtain ⟨⟨live, hs⟩, -⟩ := hi
  obtain ⟨name, hmem, -⟩ := hl
  obtain ⟨q, hq, he⟩ := List.mem_map.mp hmem
  obtain ⟨-, rfl⟩ := Prod.mk.inj he
  exact fun h => hs.root_notMem hk (h ▸ hq)

theorem Lost.step (hk : k ≤ 30) (hi : Inv k region s) (hl : Lost s p) {a : Act} (ha : Allowed k s a)
    (hstep : step k s a = some s') : Inv k region s' ∧ Lost s' p := by
  obtain ⟨res, s₁, grant, hcall, hi', happly, -⟩ := step_simulates hk hi ha
  rw [Ramfs.step, hcall, Option.map_some, Option.some.injEq] at hstep
  subst hstep
  have hfind := hl.find_ne (hl.ne_root hk hi)
  obtain ⟨name, hmem, hhead⟩ := hl
  have hkept := apply_entries grant a hfind hmem
  rw [happly] at hkept
  exact ⟨hi', name, hkept, hhead⟩

theorem rename_lost (hk : k ≤ 30) (hi : Inv k region s) {old new : Path} (ha : Allowed k s (.rename old new))
    (hcall : call k s (.rename old new) = some (.done, s')) :
    ∃ p, s.files.find old = some p ∧ Inv k region s' ∧ Lost s' p := by
  obtain ⟨res, s₁, grant, hcall', hi', happly, -⟩ := step_simulates hk hi ha
  cases hcall'.symm.trans hcall
  rw [Files.apply] at happly
  cases hnew : s.files.find new with
  | some q =>
    rw [hnew] at happly
    cases happly
  | none =>
    cases hold : s.files.find old with
    | none =>
      rw [hnew, hold] at happly
      cases happly
    | some p =>
      rw [hnew, hold] at happly
      have hentries := congrArg Files.entries (Prod.mk.inj happly).2
      obtain ⟨-, hname⟩ := files_find_mem ha.2.1 hold
      refine ⟨p, rfl, hi', new, ?_, ?_⟩
      · rw [← hentries]
        exact List.mem_map.mpr ⟨_, hname, if_pos rfl⟩
      · rw [ha.2.2.1.strip_eq.1]
        rfl

/-- After a file has been renamed no path finds it any more, however the run goes on, and it is never removed. -/
theorem ramfs_rename_loses (hk : k ≤ 30) (mem : Lib.Bytes.Mem) (hbound : pool + size ≤ 2 ^ 32) (hsmall : size < 2 ^ 31)
    (hroom : 2 * memheapSize k ≤ heapSize k offs size) {acts : List Act}
    (hallowed : AllSteps (step k) (Allowed k) (init k offs mem pool size maxfd) acts)
    (hrun : exec (step k) (init k offs mem pool size maxfd) acts = some s) {old new : Path}
    (hrename : Allowed k s (.rename old new)) (hcall : call k s (.rename old new) = some (.done, s')) :
    ∃ p, s.files.find old = some p ∧ ∀ acts' s'', AllSteps (step k) (Allowed k) s' acts' →
      exec (step k) s' acts' = some s'' → p ∈ s''.fs.list ∧ ∀ path, s''.files.find path ≠ some p := by
  have hi := run_inv hk (init_inv hk mem hbound hsmall hroom) hallowed hrun
  obtain ⟨p, hfind, hi', hlost⟩ := rename_lost hk hi hrename hcall
  refine ⟨p, hfind, fun acts' s'' hallowed' hrun' => ?_⟩
  obtain ⟨hi'', hlost''⟩ := exec_inv_of_allSteps (fun s => Inv k _ s ∧ Lost s p) (Allowed k)
    (fun s a s' h ha hstep => h.2.step hk h.1 ha hstep) ⟨hi', hlost⟩ hallowed' hrun'
  refine ⟨?_, hlost''.find_ne (hlost''.ne_root hk hi'')⟩
  obtain ⟨name, hmem, -⟩ := hlost''
  obtain ⟨q, hq, he⟩ := List.mem_map.mp hmem
  obtain ⟨-, rfl⟩ := Prod.mk.inj he
  exact hq

theorem ramfs_rename_loses_sample :
    ∃ s s', exec (step 2) sampleInit (sampleRun ++ [.close 1]) = some s ∧
      call 2 s (.rename ['/', 'a'] ['/', 'b']) = some (.done, s') ∧
      ∃ p, s.files.find ['/', 'a'] = some p ∧ ∀ acts' s'', AllSteps (step 2) (Allowed 2) s' acts' →
        exec (step 2) s' acts' = some s'' → p ∈ s''.fs.list ∧ ∀ path, s''.files.find path ≠ some p := by
  have hallowed : AllSteps (step 2) (Allowed 2) sampleInit (sampleRun ++ [.close 1]) := by decide +kernel
  have hrun : ((exec (step 2) sampleInit (sampleRun ++ [.close 1])).map fun s =>
      (decide (Allowed 2 s (.rename ['/', 'a'] ['/', 'b'])),
        (call 2 s (.rename ['/', 'a'] ['/', 'b'])).map Prod.fst)) = some (true, some .done) := by
    decide +kernel
  obtain ⟨s, hs, hvalues⟩ := Option.map_eq_some_iff.mp hrun
  obtain ⟨hrename, hresult⟩ := Prod.mk.inj hvalues
  obtain ⟨⟨res, s'⟩, hcall, rfl⟩ := Option.map_eq_some_iff.mp hresult
  exact ⟨s, s', hs, hcall, ramfs_rename_loses (by decide) (fun _ => 0) (by decide) (by decide) (by decide) hallowed hs
    (of_decide_eq_true hrename) hcall⟩

end RtThread.Dfs.Ramfs
