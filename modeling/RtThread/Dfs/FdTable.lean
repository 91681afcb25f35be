import RtThread.Lib.Transition
import Mathlib

/-!
# The table of file descriptors (`dfs.c:121-277`)

The functions run under the lock of the file system, apart from the range test of `fd_get`. The run
keeps the descriptors that `fd_new` has handed out with the references to each that are still to be
put; reference counts do not wrap.
-/

namespace RtThread.Dfs.FdTable

open RtThread.Lib.Transition

/-- The fields of `struct dfs_fd` that the table functions use. -/
structure DfsFd where
  magic : ℕ
  refCount : ℕ
  deriving DecidableEq, Repr

def dfsFdMagic : ℕ := 0xfdfd

def dfsFdOffset : ℤ := 3

/-- The table, and the descriptors that are allocated; `P` is the type of their addresses. -/
structure State (P : Type*) where
  maxfd : ℕ
  fds : ℕ → Option P
  heap : P → Option DfsFd

variable {P : Type*}

def State.init : State P := ⟨0, fun _ => none, fun _ => none⟩

/-- The test of the search loop of `fd_alloc` (`dfs.c:126-132`). -/
def State.isEmpty (s : State P) (idx : ℕ) : Bool :=
  match s.fds idx with
  | none => true
  | some p => (s.heap p).any fun d => decide (d.refCount = 0)

/-- The table with `cnt` entries, of which the new ones are `NULL` (`dfs.c:137-152`). -/
def State.grow (s : State P) (cnt : ℕ) : State P :=
  { s with maxfd := cnt, fds := fun i => if s.maxfd ≤ i ∧ i < cnt then none else s.fds i }

variable [DecidableEq P]

def State.setFd (s : State P) (p : P) (d : Option DfsFd) : State P :=
  { s with heap := Function.update s.heap p d }

def State.setEntry (s : State P) (idx : ℕ) (p : Option P) : State P :=
  { s with fds := Function.update s.fds idx p }

/-- `fd_alloc` (`dfs.c:121-167`): `realloc` says whether `rt_realloc` succeeds, and `calloc` is what
`rt_calloc` returns. -/
def fdAlloc (fdMax : ℕ) (s : State P) (startfd : ℕ) (realloc : Bool) (calloc : Option P) : State P × ℕ :=
  let idx := ((List.range' startfd (s.maxfd - startfd)).find? s.isEmpty).getD (max startfd s.maxfd)
  if idx = s.maxfd ∧ s.maxfd < fdMax ∧ realloc = false then (s, idx)
  else
    let s := if idx = s.maxfd ∧ s.maxfd < fdMax then s.grow (min (s.maxfd + 4) fdMax) else s
    if idx < s.maxfd ∧ s.fds idx = none then
      match calloc with
      | some p => ((s.setEntry idx (some p)).setFd p (some ⟨0, 0⟩), idx)
      | none => (s, s.maxfd)
    else (s, idx)

/-- `fd_new` (`dfs.c:175-203`). -/
def fdNew (fdMax : ℕ) (s : State P) (realloc : Bool) (calloc : Option P) : State P × ℤ :=
  let (s, idx) := fdAlloc fdMax s 0 realloc calloc
  if idx = s.maxfd then (s, -(1 + dfsFdOffset) + dfsFdOffset)
  else
    match s.fds idx with
    | some p => (s.setFd p (some ⟨dfsFdMagic, 1⟩), idx + dfsFdOffset)
    | none => (s, idx + dfsFdOffset)

omit [DecidableEq P] in
/-- The range test of `fd_get` (`dfs.c:219-227`), with the index that passes it. `console` is
`libc_stdio_get_console()` in a build that has it. -/
def fdGetCheck (console : Option ℤ) (s : State P) (fd : ℤ) : Option ℕ :=
  let fd := if 0 ≤ fd ∧ fd ≤ 2 then console.getD fd else fd
  let fd := fd - dfsFdOffset
  if fd < 0 ∨ (s.maxfd : ℤ) ≤ fd then none else some fd.toNat

/-- The rest of `fd_get`, under the lock (`dfs.c:229-243`). -/
def fdGetEntry (s : State P) (fd : ℕ) : State P × Option P :=
  match s.fds fd with
  | none => (s, none)
  | some p =>
    match s.heap p with
    | none => (s, none)
    | some d =>
      if d.magic ≠ dfsFdMagic then (s, none)
      else (s.setFd p (some { d with refCount := d.refCount + 1 }), some p)

/-- `fd_get` (`dfs.c:214-244`). -/
def fdGet (console : Option ℤ) (s : State P) (fd : ℤ) : State P × Option P :=
  match fdGetCheck console s fd with
  | none => (s, none)
  | some fd => fdGetEntry s fd

/-- `fd_put` (`dfs.c:251-277`). -/
def fdPut (s : State P) (p : P) : State P :=
  match s.heap p with
  | none => s
  | some d =>
    let s := s.setFd p (some { d with refCount := d.refCount - 1 })
    if d.refCount - 1 = 0 then
      match (List.range s.maxfd).find? fun i => decide (s.fds i = some p) with
      | some i => (s.setFd p none).setEntry i none
      | none => s
    else s

/-! ### Runs -/

/-- A descriptor between its `fd_new` and its last `fd_put`: `refs` calls of `fd_new` and `fd_get` are
still to be undone. -/
structure Live (P : Type*) where
  index : ℕ
  ptr : P
  refs : ℕ

/-- `checked` holds the indices that have passed the range test of an `fd_get` under way. -/
structure Sys (P : Type*) where
  state : State P
  live : List (Live P)
  checked : List ℕ

inductive Act (P : Type*) where
  | new (realloc : Bool) (calloc : Option P)
  | check (fd : ℤ)
  | get (fd : ℕ)
  | put (p : P)

def start : Sys P := ⟨.init, [], []⟩

def Live.count (l : Live P) (p : P) (f : ℕ → ℕ) : Live P := if l.ptr = p then { l with refs := f l.refs } else l

def Sys.opens (s : Sys P) (r : State P × ℤ) : Sys P :=
  if r.2 = -1 then { s with state := r.1 }
  else
    match r.1.fds (r.2 - dfsFdOffset).toNat with
    | some p => { s with state := r.1, live := ⟨(r.2 - dfsFdOffset).toNat, p, 1⟩ :: s.live }
    | none => { s with state := r.1 }

def Sys.gets (s : Sys P) (r : State P × Option P) : Sys P :=
  match r.2 with
  | some p => { s with state := r.1, live := s.live.map fun l => l.count p (· + 1) }
  | none => { s with state := r.1 }

/-- `rt_calloc` returns memory that is not in use, and each `fd_put` undoes one earlier call. -/
def step (fdMax : ℕ) (console : Option ℤ) (s : Sys P) : Act P → Option (Sys P)
  | .new realloc calloc =>
    if (calloc.bind s.state.heap).isNone then some (s.opens (fdNew fdMax s.state realloc calloc)) else none
  | .check fd =>
    some { s with checked := (fdGetCheck console s.state fd).toList ++ s.checked }
  | .get fd =>
    if fd ∈ s.checked then some ({ s with checked := s.checked.erase fd }.gets (fdGetEntry s.state fd)) else none
  | .put p =>
    if p ∈ s.live.map Live.ptr then
      some { s with
        state := fdPut s.state p
        live := (s.live.map fun l => l.count p (· - 1)).filter fun l => decide (l.refs ≠ 0) }
    else none

/-- The entry of a live descriptor points to it, and its reference count is the number of the references. -/
structure Entry (s : State P) (l : Live P) : Prop where
  index_lt : l.index < s.maxfd
  entry_eq : s.fds l.index = some l.ptr
  heap_eq : s.heap l.ptr = some ⟨dfsFdMagic, l.refs⟩

/-- What is claimed of every state. -/
structure TableRight (fdMax : ℕ) (console : Option ℤ) (s : Sys P) : Prop where
  maxfd_le : s.state.maxfd ≤ fdMax
  distinct : (s.live.map Live.index).Nodup
  entry : ∀ l ∈ s.live, Entry s.state l ∧ 1 ≤ l.refs
  others : ∀ i < s.state.maxfd, i ∉ s.live.map Live.index → s.state.fds i = none
  get_iff : ∀ fd, (fdGet console s.state fd).2.isSome = true ↔
    ∃ l ∈ s.live, (l.index : ℤ) + dfsFdOffset = if 0 ≤ fd ∧ fd ≤ 2 then console.getD fd else fd
  get_checked_iff : ∀ i ∈ s.checked, (fdGetEntry s.state i).2.isSome = true ↔ i ∈ s.live.map Live.index
  new_fails : ∀ realloc calloc, (fdNew fdMax s.state realloc calloc).2 = -1 →
    ∀ l ∈ s.live, Entry (fdNew fdMax s.state realloc calloc).1 l

/-! ### The invariant -/

structure Inv (fdMax : ℕ) (s : Sys P) : Prop where
  maxfd_le : s.state.maxfd ≤ fdMax
  nodup_index : (s.live.map Live.index).Nodup
  nodup_ptr : (s.live.map Live.ptr).Nodup
  entry : ∀ l ∈ s.live, Entry s.state l
  refs_pos : ∀ l ∈ s.live, 0 < l.refs
  others : ∀ i < s.state.maxfd, ∀ p, s.state.fds i = some p → ∃ l ∈ s.live, l.index = i
  checked : ∀ i ∈ s.checked, i < s.state.maxfd

variable {fdMax : ℕ} {console : Option ℤ} {s s' : Sys P}

omit [DecidableEq P] in
theorem inv_start : Inv fdMax (start : Sys P) where
  maxfd_le := Nat.zero_le _
  nodup_index := List.nodup_nil
  nodup_ptr := List.nodup_nil
  entry _ h := absurd h List.not_mem_nil
  refs_pos _ h := absurd h List.not_mem_nil
  others i h := absurd h (Nat.not_lt_zero i)
  checked _ h := absurd h List.not_mem_nil

omit [DecidableEq P] in
theorem Inv.eq_of_index (h : Inv fdMax s) {l m : Live P} (hl : l ∈ s.live) (hm : m ∈ s.live) (he : l.index = m.index) :
    l = m :=
  List.inj_on_of_nodup_map h.nodup_index hl hm he

omit [DecidableEq P] in
theorem Inv.eq_of_ptr (h : Inv fdMax s) {l m : Live P} (hl : l ∈ s.live) (hm : m ∈ s.live) (he : l.ptr = m.ptr) : l = m :=
  List.inj_on_of_nodup_map h.nodup_ptr hl hm he

omit [DecidableEq P] in
theorem Inv.entry_cases (h : Inv fdMax s) {i : ℕ} (hi : i < s.state.maxfd) :
    s.state.fds i = none ∨ ∃ l ∈ s.live, l.index = i ∧ s.state.fds i = some l.ptr := by
  cases hf : s.state.fds i with
  | none => exact .inl rfl
  | some p =>
    obtain ⟨l, hl, rfl⟩ := h.others i hi p hf
    exact .inr ⟨l, hl, rfl, hf.symm.trans (h.entry l hl).entry_eq⟩

omit [DecidableEq P] in
theorem Inv.isEmpty_iff (h : Inv fdMax s) {i : ℕ} (hi : i < s.state.maxfd) :
    s.state.isEmpty i = true ↔ s.state.fds i = none := by
  rcases h.entry_cases hi with hnone | ⟨l, hl, -, hf⟩
  · simp only [State.isEmpty, hnone]
  · have hpos := h.refs_pos l hl
    simp only [State.isEmpty, hf, (h.entry l hl).heap_eq, Option.any_some, decide_eq_true_eq, reduceCtorEq, iff_false]
    omega

/-! ### `fd_new` -/

structure Grown (fdMax : ℕ) (s s' : State P) : Prop where
  heap_eq : s'.heap = s.heap
  le : s.maxfd ≤ s'.maxfd
  maxfd_le : s.maxfd ≤ fdMax → s'.maxfd ≤ fdMax
  fds_eq : ∀ i < s.maxfd, s'.fds i = s.fds i
  fresh : ∀ i, s.maxfd ≤ i → i < s'.maxfd → s'.fds i = none

omit [DecidableEq P] in
theorem Grown.refl (s : State P) : Grown fdMax s s :=
  ⟨rfl, le_rfl, id, fun _ _ => rfl, fun _ hle hlt => absurd hlt (Nat.not_lt.mpr hle)⟩

omit [DecidableEq P] in
theorem grown_grow (s : State P) (hlt : s.maxfd < fdMax) : Grown fdMax s (s.grow (min (s.maxfd + 4) fdMax)) := by
  refine ⟨rfl, ?_, fun _ => Nat.min_le_right _ _, fun i hi => if_neg fun hc => absurd hi (Nat.not_lt.mpr hc.1),
    fun i hle hlt => if_pos ⟨hle, hlt⟩⟩
  simp only [State.grow]
  omega

omit [DecidableEq P] in
theorem Grown.entry {s s' : State P} (h : Grown fdMax s s') {l : Live P} (hl : Entry s l) : Entry s' l :=
  ⟨hl.index_lt.trans_le h.le, (h.fds_eq l.index hl.index_lt).trans hl.entry_eq, by rw [h.heap_eq]; exact hl.heap_eq⟩

omit [DecidableEq P] in
theorem Inv.grown (h : Inv fdMax s) {state : State P} (hg : Grown fdMax s.state state) :
    Inv fdMax { s with state := state } := by
  refine ⟨hg.maxfd_le h.maxfd_le, h.nodup_index, h.nodup_ptr, fun l hl => hg.entry (h.entry l hl), h.refs_pos,
    fun i hi p hp => ?_, fun i hi => (h.checked i hi).trans_le hg.le⟩
  by_cases hlt : i < s.state.maxfd
  · exact h.others i hlt p ((hg.fds_eq i hlt).symm.trans hp)
  · exact absurd (hp.symm.trans (hg.fresh i (Nat.not_lt.mp hlt) hi)) (Option.some_ne_none p)

theorem fdAlloc_cases (h : Inv fdMax s) (realloc : Bool) (calloc : Option P) :
    ∃ grown, Grown fdMax s.state grown ∧
      (fdAlloc fdMax s.state 0 realloc calloc = (grown, grown.maxfd) ∨
        ∃ idx p, idx < grown.maxfd ∧ grown.fds idx = none ∧ calloc = some p ∧
          fdAlloc fdMax s.state 0 realloc calloc = ((grown.setEntry idx (some p)).setFd p (some ⟨0, 0⟩), idx)) := by
  simp only [fdAlloc]
  cases hfind : (List.range' 0 (s.state.maxfd - 0)).find? s.state.isEmpty with
  | some i =>
    -- there is an empty entry
    obtain ⟨hempty, hmem, -⟩ := List.find?_range'_eq_some.mp hfind
    have hi : i < s.state.maxfd := by
      rw [List.mem_range'_1] at hmem
      omega
    have hnone := (h.isEmpty_iff hi).mp hempty
    simp only [Option.getD_some, hi.ne, false_and, if_false, hi, hnone, and_self, if_true]
    refine ⟨s.state, Grown.refl s.state, ?_⟩
    cases calloc with
    | none => exact .inl rfl
    | some p => exact .inr ⟨i, p, hi, hnone, rfl, rfl⟩
  | none =>
    simp only [Option.getD_none, Nat.zero_max, true_and]
    by_cases hlt : s.state.maxfd < fdMax
    · cases realloc with
      | false =>
        rw [if_pos ⟨hlt, rfl⟩]
        exact ⟨s.state, Grown.refl s.state, .inl rfl⟩
      | true =>
        -- the table grows, and its first new entry is taken
        have hgrown := grown_grow s.state hlt
        have hidx : s.state.maxfd < (s.state.grow (min (s.state.maxfd + 4) fdMax)).maxfd := by
          simp only [State.grow]
          omega
        have hnone := hgrown.fresh s.state.maxfd le_rfl hidx
        rw [if_neg fun hc => absurd hc.2 (by decide), if_pos hlt, if_pos ⟨hidx, hnone⟩]
        refine ⟨_, hgrown, ?_⟩
        cases calloc with
        | none => exact .inl rfl
        | some p => exact .inr ⟨s.state.maxfd, p, hidx, hnone, rfl, rfl⟩
    · rw [if_neg fun hc => hlt hc.1, if_neg hlt, if_neg fun hc => lt_irrefl _ hc.1]
      exact ⟨s.state, Grown.refl s.state, .inl rfl⟩

theorem fdNew_cases (h : Inv fdMax s) (realloc : Bool) (calloc : Option P) :
    ∃ grown, Grown fdMax s.state grown ∧
      (fdNew fdMax s.state realloc calloc = (grown, -1) ∨
        ∃ idx p, idx < grown.maxfd ∧ grown.fds idx = none ∧ calloc = some p ∧
          fdNew fdMax s.state realloc calloc =
            ((grown.setEntry idx (some p)).setFd p (some ⟨dfsFdMagic, 1⟩), idx + dfsFdOffset)) := by
  obtain ⟨grown, hgrown, halloc | ⟨idx, p, hidx, hnone, hp, halloc⟩⟩ := fdAlloc_cases h realloc calloc
  · refine ⟨grown, hgrown, .inl ?_⟩
    rw [fdNew, halloc]
    exact if_pos rfl
  · refine ⟨grown, hgrown, .inr ⟨idx, p, hidx, hnone, hp, ?_⟩⟩
    rw [fdNew, halloc]
    simp only [State.setEntry, State.setFd, hidx.ne, if_false, Function.update_self, Function.update_idem]

theorem Inv.opened (h : Inv fdMax s) {idx : ℕ} {p : P} (hidx : idx < s.state.maxfd) (hnone : s.state.fds idx = none)
    (hfree : s.state.heap p = none) :
    Inv fdMax { s with
      state := (s.state.setEntry idx (some p)).setFd p (some ⟨dfsFdMagic, 1⟩)
      live := ⟨idx, p, 1⟩ :: s.live } := by
  have hptr : ∀ l ∈ s.live, l.ptr ≠ p := fun l hl he => by
    have heap := (h.entry l hl).heap_eq
    rw [he, hfree] at heap
    cases heap
  have hindex : ∀ l ∈ s.live, l.index ≠ idx := fun l hl he => by
    have hentry := (h.entry l hl).entry_eq
    rw [he, hnone] at hentry
    cases hentry
  refine ⟨h.maxfd_le, ?_, ?_, ?_, ?_, ?_, h.checked⟩
  · refine List.nodup_cons.mpr ⟨fun hmem => ?_, h.nodup_index⟩
    obtain ⟨l, hl, he⟩ := List.mem_map.mp hmem
    exact hindex l hl he
  · refine List.nodup_cons.mpr ⟨fun hmem => ?_, h.nodup_ptr⟩
    obtain ⟨l, hl, he⟩ := List.mem_map.mp hmem
    exact hptr l hl he
  · refine List.forall_mem_cons.mpr ⟨⟨hidx, Function.update_self _ _ _, Function.update_self _ _ _⟩, fun l hl => ?_⟩
    have hentry := h.entry l hl
    exact ⟨hentry.index_lt, (Function.update_of_ne (hindex l hl) _ _).trans hentry.entry_eq,
      (Function.update_of_ne (hptr l hl) _ _).trans hentry.heap_eq⟩
  · exact List.forall_mem_cons.mpr ⟨Nat.one_pos, h.refs_pos⟩
  · intro i hi q hq
    by_cases hii : i = idx
    · exact ⟨_, List.mem_cons_self, hii.symm⟩
    · have hold : s.state.fds i = some q := (Function.update_of_ne hii _ _).symm.trans hq
      obtain ⟨l, hl, he⟩ := h.others i hi q hold
      exact ⟨l, List.mem_cons_of_mem _ hl, he⟩

theorem inv_new (h : Inv fdMax s) {realloc : Bool} {calloc : Option P} (hfree : ∀ p ∈ calloc, s.state.heap p = none) :
    Inv fdMax (s.opens (fdNew fdMax s.state realloc calloc)) := by
  obtain ⟨grown, hgrown, hnew | ⟨idx, p, hidx, hnone, hp, hnew⟩⟩ := fdNew_cases h realloc calloc
  · rw [hnew]
    exact h.grown hgrown
  · have hne : (idx : ℤ) + dfsFdOffset ≠ -1 := by
      rw [dfsFdOffset]
      omega
    have hidx' : ((idx : ℤ) + dfsFdOffset - dfsFdOffset).toNat = idx := by
      rw [add_sub_cancel_right, Int.toNat_natCast]
    have hentry : ((grown.setEntry idx (some p)).setFd p (some ⟨dfsFdMagic, 1⟩)).fds idx = some p :=
      Function.update_self _ _ _
    rw [hnew]
    simp only [Sys.opens, if_neg hne, hidx', hentry]
    exact (h.grown hgrown).opened hidx hnone (by rw [hgrown.heap_eq]; exact hfree p hp)

/-! ### `fd_get` and `fd_put` -/

@[simp] theorem count_index (l : Live P) (p : P) (f : ℕ → ℕ) : (l.count p f).index = l.index := by
  unfold Live.count
  split <;> rfl

@[simp] theorem count_ptr (l : Live P) (p : P) (f : ℕ → ℕ) : (l.count p f).ptr = l.ptr := by
  unfold Live.count
  split <;> rfl

theorem count_refs (l : Live P) (p : P) (f : ℕ → ℕ) : (l.count p f).refs = if l.ptr = p then f l.refs else l.refs := by
  unfold Live.count
  split <;> rfl

theorem map_index_count (live : List (Live P)) (p : P) (f : ℕ → ℕ) :
    (live.map fun l => l.count p f).map Live.index = live.map Live.index := by
  simp only [List.map_map, Function.comp_def, count_index]

theorem map_ptr_count (live : List (Live P)) (p : P) (f : ℕ → ℕ) :
    (live.map fun l => l.count p f).map Live.ptr = live.map Live.ptr := by
  simp only [List.map_map, Function.comp_def, count_ptr]

theorem Inv.entry_count (h : Inv fdMax s) {l m : Live P} (hl : l ∈ s.live) (hm : m ∈ s.live) (f : ℕ → ℕ) :
    Entry (s.state.setFd l.ptr (some ⟨dfsFdMagic, f l.refs⟩)) (m.count l.ptr f) := by
  have hentry := h.entry m hm
  refine ⟨by rw [count_index]; exact hentry.index_lt, by rw [count_index, count_ptr]; exact hentry.entry_eq, ?_⟩
  rw [count_ptr, count_refs, State.setFd]
  by_cases hp : m.ptr = l.ptr
  · rw [if_pos hp, hp, h.eq_of_ptr hm hl hp]
    exact Function.update_self _ _ _
  · rw [if_neg hp]
    exact (Function.update_of_ne hp _ _).trans hentry.heap_eq

theorem Inv.count (h : Inv fdMax s) {l : Live P} (hl : l ∈ s.live) {f : ℕ → ℕ} (hpos : 0 < f l.refs) :
    Inv fdMax { s with
      state := s.state.setFd l.ptr (some ⟨dfsFdMagic, f l.refs⟩)
      live := s.live.map fun m => m.count l.ptr f } := by
  refine ⟨h.maxfd_le, ?_, ?_, fun m hm => ?_, fun m hm => ?_, fun i hi p hp => ?_, h.checked⟩
  · rw [map_index_count]
    exact h.nodup_index
  · rw [map_ptr_count]
    exact h.nodup_ptr
  · obtain ⟨n, hn, rfl⟩ := List.mem_map.mp hm
    exact h.entry_count hl hn f
  · obtain ⟨n, hn, rfl⟩ := List.mem_map.mp hm
    rw [count_refs]
    by_cases hp : n.ptr = l.ptr
    · rw [if_pos hp, h.eq_of_ptr hn hl hp]
      exact hpos
    · rw [if_neg hp]
      exact h.refs_pos n hn
  · obtain ⟨m, hm, he⟩ := h.others i hi p hp
    exact ⟨_, List.mem_map.mpr ⟨m, hm, rfl⟩, by rw [count_index, he]⟩

theorem fdGetEntry_cases (h : Inv fdMax s) {i : ℕ} (hi : i < s.state.maxfd) :
    (fdGetEntry s.state i = (s.state, none) ∧ ∀ l ∈ s.live, l.index ≠ i) ∨
      ∃ l ∈ s.live, l.index = i ∧
        fdGetEntry s.state i = (s.state.setFd l.ptr (some ⟨dfsFdMagic, l.refs + 1⟩), some l.ptr) := by
  rcases h.entry_cases hi with hnone | ⟨l, hl, he, hf⟩
  · refine .inl ⟨by simp only [fdGetEntry, hnone], fun l hl he => ?_⟩
    have hentry := (h.entry l hl).entry_eq
    rw [he, hnone] at hentry
    cases hentry
  · refine .inr ⟨l, hl, he, ?_⟩
    simp only [fdGetEntry, hf, (h.entry l hl).heap_eq, ne_eq, not_true_eq_false, if_false]

theorem inv_get (h : Inv fdMax s) {i : ℕ} (hi : i < s.state.maxfd) : Inv fdMax (s.gets (fdGetEntry s.state i)) := by
  rcases fdGetEntry_cases h hi with ⟨hget, -⟩ | ⟨l, hl, -, hget⟩
  · rw [hget]
    exact h
  · rw [hget]
    exact h.count hl (Nat.succ_pos l.refs)

omit [DecidableEq P] in
theorem Inv.index_of_entry (h : Inv fdMax s) {l : Live P} (hl : l ∈ s.live) {i : ℕ} (hi : i < s.state.maxfd)
    (hf : s.state.fds i = some l.ptr) : i = l.index := by
  obtain ⟨m, hm, rfl⟩ := h.others i hi l.ptr hf
  have hptr := (h.entry m hm).entry_eq
  rw [hf, Option.some.injEq] at hptr
  rw [h.eq_of_ptr hm hl hptr.symm]

theorem fdPut_last (h : Inv fdMax s) {l : Live P} (hl : l ∈ s.live) (hone : l.refs = 1) :
    fdPut s.state l.ptr = ((s.state.setFd l.ptr none).setEntry l.index none) := by
  have hentry := h.entry l hl
  have hfind : (List.range s.state.maxfd).find? (fun i => decide (s.state.fds i = some l.ptr)) = some l.index := by
    refine List.find?_range_eq_some.mpr ⟨decide_eq_true hentry.entry_eq, List.mem_range.mpr hentry.index_lt, fun j hj => ?_⟩
    have hne : s.state.fds j ≠ some l.ptr := fun hf => hj.ne (h.index_of_entry hl (hj.trans hentry.index_lt) hf)
    simp only [hne, decide_false, Bool.not_false]
  simp only [fdPut, hentry.heap_eq, hone, Nat.sub_self, if_true]
  have hfind' : (List.range (s.state.setFd l.ptr (some ⟨dfsFdMagic, 0⟩)).maxfd).find?
      (fun i => decide ((s.state.setFd l.ptr (some ⟨dfsFdMagic, 0⟩)).fds i = some l.ptr)) = some l.index := hfind
  rw [hfind']
  simp only [State.setFd, Function.update_idem]

theorem fdPut_more (h : Inv fdMax s) {l : Live P} (hl : l ∈ s.live) (hmore : l.refs - 1 ≠ 0) :
    fdPut s.state l.ptr = s.state.setFd l.ptr (some ⟨dfsFdMagic, l.refs - 1⟩) := by
  simp only [fdPut, (h.entry l hl).heap_eq, if_neg hmore]

theorem inv_put (h : Inv fdMax s) {l : Live P} (hl : l ∈ s.live) :
    Inv fdMax { s with
      state := fdPut s.state l.ptr
      live := (s.live.map fun m => m.count l.ptr (· - 1)).filter fun m => decide (m.refs ≠ 0) } := by
  by_cases hone : l.refs - 1 = 0
  · have hrefs : l.refs = 1 := by
      have hpos := h.refs_pos l hl
      omega
    rw [fdPut_last h hl hrefs]
    -- the descriptors that stay are the others, unchanged
    have hmem : ∀ m, m ∈ (s.live.map fun m => m.count l.ptr (· - 1)).filter (fun m => decide (m.refs ≠ 0)) →
        m ∈ s.live ∧ m.ptr ≠ l.ptr := by
      intro m hm
      obtain ⟨hm, hne⟩ := List.mem_filter.mp hm
      obtain ⟨n, hn, rfl⟩ := List.mem_map.mp hm
      have hptr : n.ptr ≠ l.ptr := fun hp => by
        rw [count_refs, if_pos hp, h.eq_of_ptr hn hl hp, hone] at hne
        exact absurd hne (by decide)
      rw [Live.count, if_neg hptr]
      exact ⟨hn, hptr⟩
    have hstay : ∀ m ∈ s.live, m.ptr ≠ l.ptr →
        m ∈ (s.live.map fun m => m.count l.ptr (· - 1)).filter (fun m => decide (m.refs ≠ 0)) := by
      intro m hm hptr
      refine List.mem_filter.mpr ⟨List.mem_map.mpr ⟨m, hm, by rw [Live.count, if_neg hptr]⟩, decide_eq_true ?_⟩
      exact (h.refs_pos m hm).ne'
    refine ⟨h.maxfd_le, ?_, ?_, fun m hm => ?_, fun m hm => h.refs_pos m (hmem m hm).1, fun i hi p hp => ?_, h.checked⟩
    · have hnodup := h.nodup_index
      rw [← map_index_count s.live l.ptr (· - 1)] at hnodup
      exact hnodup.sublist (List.filter_sublist.map _)
    · have hnodup := h.nodup_ptr
      rw [← map_ptr_count s.live l.ptr (· - 1)] at hnodup
      exact hnodup.sublist (List.filter_sublist.map _)
    · obtain ⟨hm, hptr⟩ := hmem m hm
      have hentry := h.entry m hm
      have hindex : m.index ≠ l.index := fun he => hptr (by rw [h.eq_of_index hm hl he])
      exact ⟨hentry.index_lt, (Function.update_of_ne hindex _ _).trans hentry.entry_eq,
        (Function.update_of_ne hptr _ _).trans hentry.heap_eq⟩
    · simp only [State.setEntry, State.setFd] at hp
      have hne : i ≠ l.index := fun he => by rw [he, Function.update_self] at hp; cases hp
      rw [Function.update_of_ne hne] at hp
      obtain ⟨m, hm, he⟩ := h.others i hi p hp
      exact ⟨m, hstay m hm fun hptr => hne (by rw [← he, h.eq_of_ptr hm hl hptr]), he⟩
  · rw [fdPut_more h hl hone]
    have hinv := h.count hl (f := (· - 1)) (Nat.pos_of_ne_zero hone)
    rw [List.filter_eq_self.mpr fun m hm => decide_eq_true (hinv.refs_pos m hm).ne']
    exact hinv

theorem step_inv {a : Act P} (h : Inv fdMax s) (hstep : step fdMax console s a = some s') : Inv fdMax s' := by
  cases a with
  | new realloc calloc =>
    simp only [step, Option.ite_none_right_eq_some, Option.some.injEq] at hstep
    obtain ⟨hfree, rfl⟩ := hstep
    refine inv_new h fun p hp => ?_
    rw [Option.mem_def.mp hp] at hfree
    exact Option.isNone_iff_eq_none.mp hfree
  | check fd =>
    cases hstep
    refine ⟨h.maxfd_le, h.nodup_index, h.nodup_ptr, h.entry, h.refs_pos, h.others, fun i hi => ?_⟩
    rcases List.mem_append.mp hi with hi | hi
    · rw [Option.mem_toList] at hi
      simp only [fdGetCheck] at hi
      generalize (if 0 ≤ fd ∧ fd ≤ 2 then console.getD fd else fd) = n at hi
      rw [Option.ite_none_left_eq_some, Option.some.injEq] at hi
      have hlt : i < s.state.maxfd := by omega
      exact hlt
    · exact h.checked i hi
  | get i =>
    simp only [step, Option.ite_none_right_eq_some, Option.some.injEq] at hstep
    obtain ⟨hi, rfl⟩ := hstep
    have hinv : Inv fdMax { s with checked := s.checked.erase i } :=
      ⟨h.maxfd_le, h.nodup_index, h.nodup_ptr, h.entry, h.refs_pos, h.others,
        fun j hj => h.checked j (List.mem_of_mem_erase hj)⟩
    exact inv_get hinv (h.checked i hi)
  | put p =>
    simp only [step, Option.ite_none_right_eq_some, Option.some.injEq] at hstep
    obtain ⟨hp, rfl⟩ := hstep
    obtain ⟨l, hl, rfl⟩ := List.mem_map.mp hp
    exact inv_put h hl

theorem Inv.tableRight (h : Inv fdMax s) (console : Option ℤ) : TableRight fdMax console s := by
  refine ⟨h.maxfd_le, h.nodup_index, fun l hl => ⟨h.entry l hl, h.refs_pos l hl⟩, fun i hi hnot => ?_, fun fd => ?_,
    fun i hi => ?_, fun realloc calloc hfail l hl => ?_⟩
  · rcases h.entry_cases hi with hnone | ⟨l, hl, he, -⟩
    · exact hnone
    · exact absurd (List.mem_map.mpr ⟨l, hl, he⟩) hnot
  · simp only [fdGet, fdGetCheck]
    generalize (if 0 ≤ fd ∧ fd ≤ 2 then console.getD fd else fd) = n
    by_cases hrange : n - dfsFdOffset < 0 ∨ (s.state.maxfd : ℤ) ≤ n - dfsFdOffset
    · rw [if_pos hrange]
      refine iff_of_false Bool.false_ne_true fun ⟨l, hl, he⟩ => ?_
      have hlt := (h.entry l hl).index_lt
      omega
    · rw [if_neg hrange]
      have hi : (n - dfsFdOffset).toNat < s.state.maxfd := by omega
      rcases fdGetEntry_cases h hi with ⟨hget, hnot⟩ | ⟨l, hl, he, hget⟩
      · simp only [hget]
        refine iff_of_false Bool.false_ne_true fun ⟨l, hl, he⟩ => hnot l hl ?_
        omega
      · simp only [hget]
        refine iff_of_true rfl ⟨l, hl, ?_⟩
        omega
  · rcases fdGetEntry_cases h (h.checked i hi) with ⟨hget, hnot⟩ | ⟨l, hl, he, hget⟩
    · simp only [hget]
      refine iff_of_false Bool.false_ne_true fun hmem => ?_
      obtain ⟨l, hl, he⟩ := List.mem_map.mp hmem
      exact hnot l hl he
    · simp only [hget]
      exact iff_of_true rfl (List.mem_map.mpr ⟨l, hl, he⟩)
  · obtain ⟨grown, hgrown, hnew | ⟨idx, p, -, -, -, hnew⟩⟩ := fdNew_cases h realloc calloc
    · rw [hnew]
      exact hgrown.entry (h.entry l hl)
    · rw [hnew] at hfail
      simp only [dfsFdOffset] at hfail
      omega

/-- In every run of `fd_new`, `fd_get` and matching `fd_put` calls, whatever `rt_realloc` and `rt_calloc`
return, the table is right in every state. -/
theorem fd_table_right (fdMax : ℕ) (console : Option ℤ) (acts : List (Act P))
    (hrun : exec (step fdMax console) start acts = some s) : TableRight fdMax console s :=
  (exec_inv (Inv fdMax) (fun _ _ _ h hstep => step_inv h hstep) inv_start hrun).tableRight console

/-- Two descriptors, the second of which needs no new entries; the first is put and its entry used again. -/
def reuseRun : List (Act ℕ) :=
  [.new true (some 10), .new false (some 20), .check 3, .get 0, .put 10, .put 10, .new true none, .new true (some 30)]

theorem fd_table_right_reuse :
    ((exec (step 4 none) start reuseRun).map fun s => s.live.map fun l => (l.index, l.ptr, l.refs)) =
        some [(0, 30, 1), (1, 20, 1)] ∧
      ∀ s, exec (step 4 none) start reuseRun = some s → TableRight 4 none s :=
  ⟨by decide, fun _ hrun => fd_table_right 4 none reuseRun hrun⟩

end RtThread.Dfs.FdTable
