import RtThread.Memory.MemPool

/-!
# Runs on a memory pool

Any number of threads and interrupts allocate and free blocks, and the timers of waiting
threads expire, in any order of the interrupt-disabled sections.
-/

namespace RtThread.Memory.MemPool

open RtThread.Lib.Word RtThread.Lib.Transition RtThread.Lib.Chain RtThread.Ipc.Base

/-- The local variables of a call of `rt_mp_alloc` that was suspended. -/
structure Frame where
  time : ℤ
  beforeSleep : ℕ

/-- `woken` has the threads between their wake-up and their next look at the pool, and
`allocated` the blocks that were handed out. When `emptyTaken` is set, `rt_mp_free` has taken
a thread from the empty suspend list, and nothing is known of what follows. -/
structure Sys (T : Type*) where
  state : State T
  frame : T → Option Frame
  woken : List T
  allocated : List ℕ
  emptyTaken : Bool

variable {T : Type*}

def start (state : State T) : Sys T := ⟨state, fun _ => none, [], [], false⟩

variable [DecidableEq T]

def Sys.record (s : Sys T) (t : T) (r : State T × Outcome) : Sys T :=
  match r.2 with
  | .failed => { s with state := r.1, frame := Function.update s.frame t none }
  | .suspended time beforeSleep =>
    { s with state := r.1, frame := Function.update s.frame t (some ⟨time, beforeSleep⟩) }
  | .allocated i =>
    { s with state := r.1, frame := Function.update s.frame t none, allocated := i :: s.allocated }

def Sys.recordFree (s : Sys T) (block : ℕ) : FreeResult T → Sys T
  | .freed state woken =>
    { s with state := state, woken := woken.toList ++ s.woken, allocated := s.allocated.erase block }
  | .emptyList => { s with emptyTaken := true }

inductive Act (T : Type*) where
  | alloc (t : T) (time : ℤ)
  | resume (t : T)
  | free (block : ℕ)
  | timeout (t : T)
  | tick

/-- One section. Blocks are freed only while they are allocated. -/
def step (s : Sys T) (a : Act T) : Option (Sys T) :=
  if s.emptyTaken = true then none
  else
    match a with
    | .alloc t time => if (s.frame t).isNone = true then (rtMpAlloc s.state t time).map (s.record t) else none
    | .resume t =>
      if t ∈ s.woken then
        (s.frame t).bind fun f =>
          (rtMpAllocResume s.state t f.time f.beforeSleep).map
            ({ s with woken := s.woken.erase t }.record t)
      else none
    | .free block =>
      if block ∈ s.allocated then (rtMpFree s.state block).map (s.recordFree block) else none
    | .timeout t =>
      if t ∈ s.state.mp.suspendThread ∧ (s.state.thread t).threadTimer = true then
        some { s with state := rtThreadTimeout s.state t, woken := t :: s.woken }
      else none
    | .tick => some { s with state := { s.state with tick := inc 32 s.state.tick } }

theorem step_cases {s s' : Sys T} {a : Act T} (h : step s a = some s') :
    s.emptyTaken = false ∧
    ((∃ t time r, a = .alloc t time ∧ s.frame t = none ∧ rtMpAlloc s.state t time = some r ∧
        s' = s.record t r) ∨
    (∃ t f r, a = .resume t ∧ t ∈ s.woken ∧ s.frame t = some f ∧
        rtMpAllocResume s.state t f.time f.beforeSleep = some r ∧
        s' = { s with woken := s.woken.erase t }.record t r) ∨
    (∃ block r, a = .free block ∧ block ∈ s.allocated ∧ rtMpFree s.state block = some r ∧
        s' = s.recordFree block r) ∨
    (∃ t, a = .timeout t ∧ t ∈ s.state.mp.suspendThread ∧ (s.state.thread t).threadTimer = true ∧
        s' = { s with state := rtThreadTimeout s.state t, woken := t :: s.woken }) ∨
    (a = .tick ∧ s' = { s with state := { s.state with tick := inc 32 s.state.tick } })) := by
  unfold step at h
  split at h
  · cases h
  · rename_i hempty
    refine ⟨by simpa using hempty, ?_⟩
    cases a with
    | alloc t time =>
      simp only [Option.ite_none_right_eq_some, Option.map_eq_some_iff] at h
      obtain ⟨hf, r, hr, rfl⟩ := h
      exact Or.inl ⟨t, time, r, rfl, Option.isNone_iff_eq_none.mp hf, hr, rfl⟩
    | resume t =>
      simp only [Option.ite_none_right_eq_some, Option.bind_eq_some_iff, Option.map_eq_some_iff] at h
      obtain ⟨ht, f, hf, r, hr, rfl⟩ := h
      exact Or.inr (Or.inl ⟨t, f, r, rfl, ht, hf, hr, rfl⟩)
    | free block =>
      simp only [Option.ite_none_right_eq_some, Option.map_eq_some_iff] at h
      obtain ⟨hmem, r, hr, rfl⟩ := h
      exact Or.inr (Or.inr (Or.inl ⟨block, r, rfl, hmem, hr, rfl⟩))
    | timeout t =>
      simp only [Option.ite_none_right_eq_some, Option.some.injEq] at h
      exact Or.inr (Or.inr (Or.inr (Or.inl ⟨t, rfl, h.1.1, h.1.2, h.2.symm⟩)))
    | tick =>
      simp only [Option.some.injEq] at h
      exact Or.inr (Or.inr (Or.inr (Or.inr ⟨rfl, h.symm⟩)))

/-! ### The number of waiting threads -/

/-- The count is the number of the threads on the suspend list, and none was taken from an empty
list. -/
def Counted (s : Sys T) : Prop :=
  s.state.mp.suspendThreadCount = s.state.mp.suspendThread.length ∧ s.emptyTaken = false

omit [DecidableEq T] in
instance (s : Sys T) : Decidable (Counted s) := inferInstanceAs (Decidable (_ ∧ _))

def Act.expiry : Act T → Bool
  | .timeout _ => true
  | _ => false

omit [DecidableEq T] in
theorem takeBlock_suspend {s s' : State T} {i : ℕ} (h : takeBlock s = some (s', i)) :
    s'.mp.suspendThread = s.mp.suspendThread ∧ s'.mp.suspendThreadCount = s.mp.suspendThreadCount := by
  unfold takeBlock at h
  split at h
  · cases h
    exact ⟨rfl, rfl⟩
  · cases h

theorem rtMpAllocPass_counted {s : Sys T} {t : T} {time : ℤ} {beforeSleep : ℕ} {r : State T × Outcome}
    (hc : Counted s) (h : rtMpAllocPass s.state t time beforeSleep = some r) : Counted (s.record t r) := by
  unfold rtMpAllocPass at h
  split at h
  · split at h
    · cases h
      exact hc
    · cases h
      exact ⟨congrArg (· + 1) hc.1, hc.2⟩
  · obtain ⟨⟨s', i⟩, htake, rfl⟩ := Option.map_eq_some_iff.mp h
    obtain ⟨hlist, hcount⟩ := takeBlock_suspend htake
    refine ⟨?_, hc.2⟩
    simp only [Sys.record, hlist, hcount]
    exact hc.1

theorem rtMpFree_counted {s : Sys T} {block : ℕ} {r : FreeResult T} (hc : Counted s)
    (h : rtMpFree s.state block = some r) : Counted (s.recordFree block r) := by
  obtain ⟨hcount, hempty⟩ := hc
  unfold rtMpFree at h
  split at h
  · split at h
    · rename_i hpos
      split at h
      · rename_i hlist
        rw [hcount, hlist] at hpos
        cases hpos
      · rename_i w rest hlist
        cases h
        refine ⟨?_, hempty⟩
        simp only [Sys.recordFree, resumeFirst, putBlock]
        rw [hcount, hlist, List.length_cons, Nat.add_sub_cancel]
    · cases h
      exact ⟨hcount, hempty⟩
  · cases h

theorem step_counted_iff {s s' : Sys T} {a : Act T} (hc : Counted s) (h : step s a = some s') :
    Counted s' ↔ a.expiry = false := by
  obtain ⟨hempty, hcases⟩ := step_cases h
  rcases hcases with ⟨t, time, r, rfl, -, hr, rfl⟩ | ⟨t, f, r, rfl, -, -, hr, rfl⟩ |
    ⟨block, r, rfl, -, hr, rfl⟩ | ⟨t, rfl, ht, -, rfl⟩ | ⟨rfl, rfl⟩
  · exact iff_of_true (rtMpAllocPass_counted hc hr) rfl
  · refine iff_of_true ?_ rfl
    unfold rtMpAllocResume at hr
    split at hr
    · cases hr
      exact hc
    · exact @rtMpAllocPass_counted _ _ { s with woken := s.woken.erase t } _ _ _ _ hc hr
  · exact iff_of_true (rtMpFree_counted hc hr) rfl
  · refine iff_of_false (fun hc' => ?_) Bool.noConfusion
    have hlen : (s.state.mp.suspendThread.erase t).length = s.state.mp.suspendThread.length - 1 :=
      List.length_erase_of_mem ht
    have hpos : 0 < s.state.mp.suspendThread.length := List.length_pos_of_mem ht
    have hold := hc.1
    have hnew : s.state.mp.suspendThreadCount = (s.state.mp.suspendThread.erase t).length := hc'.1
    omega
  · exact iff_of_true hc rfl

/-- In exactly those runs in which the timer of no waiting thread expires, the count is at all
times the number of the threads on the suspend list, and `rt_mp_free` never takes a thread from
the empty list. -/
theorem waiters_counted_iff (k : ℕ) (word : ℕ → Link) (size blockSize : ℕ) (thread : T → Thread) (tick : ℕ)
    (acts : List (Act T)) :
    AllStates step Counted (start (rtMpInit k word size blockSize thread tick)) acts ↔
      AllSteps step (fun _ a => a.expiry = false) (start (rtMpInit k word size blockSize thread tick)) acts :=
  allStates_iff_allSteps (fun _ => True) Counted (fun _ a => a.expiry = false)
    (fun _ _ _ _ _ => trivial) (fun _ _ _ _ hc h => step_counted_iff hc h) acts trivial ⟨rfl, rfl⟩

/-- One block and two threads: thread 1 has the block, the timer of thread 2 expires, and then
thread 1 frees the block. -/
def expiryRun : List (Act ℕ) := [.alloc 1 0, .alloc 2 5, .timeout 2, .free 0]

theorem waiters_miscounted :
    ∃ s s', exec step (start (rtMpInit 2 (fun _ => .null) 12 8 (fun t : ℕ => rtThreadInit t) 0)) (expiryRun.take 3) =
        some s ∧
      s.state.mp.suspendThreadCount = 1 ∧ s.state.mp.suspendThread = [] ∧
      step s (.free 0) = some s' ∧ s'.emptyTaken = true :=
  ⟨_, _, rfl, by decide, by decide, rfl, by decide⟩

/-! ### The blocks, when threads wait without a timeout -/

/-- The blocks of the list that starts at `block_list` and ends with a null link. -/
def FreeList (s : State T) (l : List ℕ) : Prop :=
  Linked (fun i => (s.word i).next) s.mp.blockList.next l ∧ s.mp.blockList ≠ .pool ∧
    ∀ i ∈ l, s.word i ≠ .pool

/-- What every run keeps in which threads wait forever or not at all. While threads are waiting,
the free blocks are at most as many as the woken threads and `d`. -/
structure Inv (d : ℕ) (s : Sys T) : Prop where
  blocks : ∃ l, FreeList s.state l ∧ s.state.mp.blockFreeCount = l.length ∧
    (l ++ s.allocated).Perm (List.range s.state.mp.blockTotalCount)
  owned : ∀ i ∈ s.allocated, s.state.word i = .pool
  total_lt : s.state.mp.blockTotalCount < 2 ^ 32
  counted : Counted s
  nodup : (s.woken ++ s.state.mp.suspendThread).Nodup
  framed : ∀ t, t ∈ s.woken ∨ t ∈ s.state.mp.suspendThread → s.frame t ≠ none
  patient : ∀ t f, s.frame t = some f → f.time < 0
  noTimer : ∀ t ∈ s.state.mp.suspendThread, (s.state.thread t).threadTimer = false
  noError : ∀ t ∈ s.woken, (s.state.thread t).error = .eok
  enough : s.state.mp.suspendThread ≠ [] → s.state.mp.blockFreeCount ≤ s.woken.length + d

omit [DecidableEq T] in
theorem rtMpInitLoop_apply (word : ℕ → Link) {n i : ℕ} (h : i < n) :
    rtMpInitLoop word n i = .block (i + 1) := by
  induction n with
  | zero => cases h
  | succ n ih =>
    rw [rtMpInitLoop]
    rcases Nat.lt_succ_iff_lt_or_eq.mp h with h | rfl
    · rw [Function.update_of_ne (by omega)]
      exact ih h
    · exact Function.update_self ..

omit [DecidableEq T] in
theorem start_inv (k : ℕ) (word : ℕ → Link) {size : ℕ} (blockSize : ℕ) (thread : T → Thread) (tick : ℕ)
    (hsize : size < 2 ^ 32)
    (hblock : 0 < (rtMpInit k word size blockSize thread tick).mp.blockTotalCount) :
    Inv 0 (start (rtMpInit k word size blockSize thread tick)) := by
  have hlt : (rtMpInit k word size blockSize thread tick).mp.blockTotalCount < 2 ^ 32 := by
    refine lt_of_le_of_lt ?_ hsize
    exact (Nat.div_le_self _ _).trans (Nat.div_mul_le_self _ _)
  have hword : (rtMpInit k word size blockSize thread tick).word =
      Function.update (rtMpInitLoop word (rtMpInit k word size blockSize thread tick).mp.blockTotalCount)
        ((rtMpInit k word size blockSize thread tick).mp.blockTotalCount - 1) .null := rfl
  have hlist : (rtMpInit k word size blockSize thread tick).mp.blockList = .block 0 := rfl
  have hfree : (rtMpInit k word size blockSize thread tick).mp.blockFreeCount =
      (rtMpInit k word size blockSize thread tick).mp.blockTotalCount := rfl
  have hsuspend : (rtMpInit k word size blockSize thread tick).mp.suspendThread = [] := rfl
  generalize hs : rtMpInit k word size blockSize thread tick = s at *
  refine ⟨⟨List.range s.mp.blockTotalCount, ⟨?_, ?_, fun i hi => ?_⟩, ?_, ?_⟩, by simp [start], hlt,
    ⟨?_, rfl⟩, ?_, by simp [start, hsuspend], by simp [start], by simp [start, hsuspend], by simp [start],
    by simp [start, hsuspend]⟩
  · have hlinked := @linked_range' (fun i => (s.word i).next) 0 s.mp.blockTotalCount
      (fun i _ hi => by
        simp only [hword]
        rw [Function.update_of_ne (by omega), rtMpInitLoop_apply word (by omega)]
        rfl)
      (fun _ => by
        simp only [hword, Nat.zero_add]
        rw [Function.update_self]
        rfl)
    rw [if_neg hblock.ne', ← List.range_eq_range'] at hlinked
    simp only [start, hlist]
    exact hlinked
  · simp only [start, hlist]
    exact Link.noConfusion
  · have hi' : i < s.mp.blockTotalCount := List.mem_range.mp hi
    simp only [start, hword]
    by_cases hlast : i = s.mp.blockTotalCount - 1
    · rw [hlast, Function.update_self]
      exact Link.noConfusion
    · rw [Function.update_of_ne hlast, rtMpInitLoop_apply word hi']
      exact Link.noConfusion
  · simp only [start, hfree, List.length_range]
  · simp [start]
  · rw [← hs]
    rfl
  · simp [start, hsuspend]

omit [DecidableEq T] in
theorem takeBlock_spec {s : State T} {l : List ℕ} (hl : FreeList s l) (hlen : s.mp.blockFreeCount = l.length)
    (hpos : s.mp.blockFreeCount ≠ 0) (hnd : l.Nodup) :
    ∃ i l' s', l = i :: l' ∧ takeBlock s = some (s', i) ∧ FreeList s' l' ∧
      s'.mp.blockFreeCount = l'.length ∧ s'.word = Function.update s.word i .pool ∧
      s'.mp.blockTotalCount = s.mp.blockTotalCount ∧ s'.mp.suspendThread = s.mp.suspendThread ∧
      s'.thread = s.thread := by
  obtain ⟨hlinked, hpool, hwords⟩ := hl
  cases l with
  | nil => exact absurd hlen hpos
  | cons i l' =>
    obtain ⟨hstart, hrest⟩ := hlinked
    obtain ⟨hi, -⟩ := List.nodup_cons.mp hnd
    have hlist : s.mp.blockList = .block i := by
      cases hb : s.mp.blockList with
      | block j =>
        rw [hb] at hstart
        exact congrArg Link.block (Option.some.inj hstart)
      | null =>
        rw [hb] at hstart
        cases hstart
      | pool =>
        rw [hb] at hstart
        cases hstart
    have hsame : ∀ j ∈ l', Function.update s.word i .pool j = s.word j := by
      intro j hj
      refine Function.update_of_ne ?_ _ _
      rintro rfl
      exact hi hj
    have htake : takeBlock s = some ({ s with
        mp := { s.mp with blockFreeCount := dec 32 s.mp.blockFreeCount, blockList := s.word i }
        word := Function.update s.word i .pool }, i) := by simp only [takeBlock, hlist]
    refine ⟨i, l', _, rfl, htake, ⟨?_, ?_, fun j hj => ?_⟩, ?_, rfl, rfl, rfl, rfl⟩
    · refine Linked.congr (fun j hj => ?_) hrest
      simp only [hsame j hj]
    · exact hwords i List.mem_cons_self
    · simp only [hsame j hj]
      exact hwords j (List.mem_cons_of_mem i hj)
    · simp only
      rw [hlen, dec_of_pos (by simp), List.length_cons, Nat.add_sub_cancel]

/-- A pass of `rt_mp_alloc` of a thread that is neither waiting nor woken. The thread may be the
one for which a block was freed, so one more block than woken threads may be there. -/
theorem rtMpAllocPass_inv {s : Sys T} {t : T} {time : ℤ} {beforeSleep : ℕ} {r : State T × Outcome}
    (hI : Inv 1 s) (hidle : s.frame t = none) (htime : time ≤ 0)
    (h : rtMpAllocPass s.state t time beforeSleep = some r) : Inv 0 (s.record t r) := by
  have hcounted := rtMpAllocPass_counted hI.counted h
  have hnot : ∀ u, u ∈ s.woken ∨ u ∈ s.state.mp.suspendThread → u ≠ t := by
    rintro u hu rfl
    exact hI.framed u hu hidle
  unfold rtMpAllocPass at h
  split at h
  · rename_i hzero
    have henough : s.state.mp.blockFreeCount ≤ s.woken.length + 0 := by omega
    split at h
    · cases h
      refine ⟨hI.blocks, hI.owned, hI.total_lt, hcounted, hI.nodup, fun u hu => ?_, fun u f hf => ?_,
        fun u hu => ?_, fun u hu => ?_, fun _ => henough⟩
      · simp only [Sys.record, Function.update_of_ne (hnot u hu)]
        exact hI.framed u hu
      · by_cases hut : u = t
        · simp [Sys.record, hut] at hf
        · simp only [Sys.record, Function.update_of_ne hut] at hf
          exact hI.patient u f hf
      · simp only [Sys.record, Function.update_of_ne (hnot u (Or.inr hu))]
        exact hI.noTimer u hu
      · simp only [Sys.record, Function.update_of_ne (hnot u (Or.inl hu))]
        exact hI.noError u hu
    · rename_i hne
      cases h
      refine ⟨hI.blocks, hI.owned, hI.total_lt, hcounted, ?_, fun u hu => ?_, fun u f hf => ?_,
        fun u hu => ?_, fun u hu => ?_, fun _ => henough⟩
      · refine (List.perm_middle.nodup_iff).mpr (List.nodup_cons.mpr ⟨fun hmem => ?_, hI.nodup⟩)
        exact hnot t (List.mem_append.mp hmem) rfl
      · simp only [Sys.record, suspendOn, List.mem_cons] at hu ⊢
        by_cases hut : u = t
        · simp [hut]
        · rw [Function.update_of_ne hut]
          exact hI.framed u (by tauto)
      · by_cases hut : u = t
        · simp only [Sys.record, hut, Function.update_self, Option.some.injEq] at hf
          rw [← hf]
          simp only
          omega
        · simp only [Sys.record, Function.update_of_ne hut] at hf
          exact hI.patient u f hf
      · by_cases hut : u = t
        · simp only [Sys.record, suspendOn, hut, Function.update_self, Thread.suspend]
          exact decide_eq_false (by omega)
        · simp only [Sys.record, suspendOn, List.mem_cons, Function.update_of_ne hut] at hu ⊢
          exact hI.noTimer u (hu.resolve_left hut)
      · simp only [Sys.record, suspendOn, Function.update_of_ne (hnot u (Or.inl hu))]
        exact hI.noError u hu
  · rename_i hpos
    obtain ⟨l, hl, hlen, hperm⟩ := hI.blocks
    have hnd : l.Nodup := ((hperm.nodup_iff).mpr List.nodup_range).of_append_left
    obtain ⟨i, l', s', rfl, htake, hl', hlen', hword, htotal, hlist, hthread⟩ := takeBlock_spec hl hlen hpos hnd
    rw [htake] at h
    cases h
    refine ⟨⟨l', hl', hlen', ?_⟩, fun j hj => ?_, ?_, hcounted, ?_, fun u hu => ?_, fun u f hf => ?_,
      fun u hu => ?_, fun u hu => ?_, fun hne => ?_⟩
    · simp only [Sys.record, htotal]
      exact List.perm_middle.trans hperm
    · simp only [Sys.record, hword, List.mem_cons] at hj ⊢
      by_cases hji : j = i
      · rw [hji, Function.update_self]
      · rw [Function.update_of_ne hji]
        exact hI.owned j (hj.resolve_left hji)
    · simp only [Sys.record, htotal]
      exact hI.total_lt
    · simp only [Sys.record, hlist]
      exact hI.nodup
    · simp only [Sys.record, hlist] at hu ⊢
      rw [Function.update_of_ne (hnot u hu)]
      exact hI.framed u hu
    · by_cases hut : u = t
      · simp [Sys.record, hut] at hf
      · simp only [Sys.record, Function.update_of_ne hut] at hf
        exact hI.patient u f hf
    · simp only [Sys.record, hlist, hthread] at hu ⊢
      exact hI.noTimer u hu
    · simp only [Sys.record, hthread] at hu ⊢
      exact hI.noError u hu
    · simp only [Sys.record, hlist] at hne ⊢
      have hbound := hI.enough hne
      rw [hlen, List.length_cons] at hbound
      rw [hlen']
      omega

omit [DecidableEq T] in
theorem putBlock_spec {s : Sys T} {block : ℕ} (hI : Inv 0 s) (hmem : block ∈ s.allocated) :
    (∃ l, FreeList (putBlock s.state block) l ∧ inc 32 s.state.mp.blockFreeCount = l.length ∧
      (l ++ s.allocated.erase block).Perm (List.range s.state.mp.blockTotalCount)) ∧
    (∀ i ∈ s.allocated.erase block, (putBlock s.state block).word i = .pool) ∧
    inc 32 s.state.mp.blockFreeCount = s.state.mp.blockFreeCount + 1 := by
  obtain ⟨l, ⟨hlinked, hpool, hwords⟩, hlen, hperm⟩ := hI.blocks
  have hnd := (hperm.nodup_iff).mpr List.nodup_range
  have hblock : block ∉ l := fun hl => List.disjoint_of_nodup_append hnd hl hmem
  have hself : (putBlock s.state block).word block = s.state.mp.blockList := Function.update_self ..
  have hsame : ∀ j, j ≠ block → (putBlock s.state block).word j = s.state.word j :=
    fun j hj => Function.update_of_ne hj _ _
  have hinc : inc 32 s.state.mp.blockFreeCount = s.state.mp.blockFreeCount + 1 := by
    have hle := hperm.length_eq
    have hpos := List.length_pos_of_mem hmem
    have hlt := hI.total_lt
    rw [List.length_append, List.length_range] at hle
    exact inc_of_lt (by omega)
  refine ⟨⟨block :: l, ⟨⟨rfl, ?_⟩, Link.noConfusion, fun i hi => ?_⟩, ?_, ?_⟩, fun i hi => ?_, hinc⟩
  · simp only [hself]
    refine Linked.congr (fun j hj => ?_) hlinked
    rw [hsame j fun he => hblock (he ▸ hj)]
  · by_cases hib : i = block
    · rw [hib, hself]
      exact hpool
    · rw [hsame i hib]
      exact hwords i ((List.mem_cons.mp hi).resolve_left hib)
  · rw [hinc, hlen, List.length_cons]
  · refine List.Perm.trans ?_ hperm
    exact (List.perm_middle.symm).trans ((List.perm_cons_erase hmem).symm.append_left l)
  · rw [hsame i ((hnd.of_append_right).mem_erase_iff.mp hi).1]
    exact hI.owned i (List.mem_of_mem_erase hi)

theorem rtMpFree_spec {s : Sys T} {block : ℕ} (hI : Inv 0 s) (hmem : block ∈ s.allocated) :
    ∃ s' woken, rtMpFree s.state block = some (.freed s' woken) ∧
      Inv 0 (s.recordFree block (.freed s' woken)) := by
  obtain ⟨hblocks, howned, hinc⟩ := putBlock_spec hI hmem
  have hcount := hI.counted.1
  cases hlist : s.state.mp.suspendThread with
  | nil =>
    refine ⟨putBlock s.state block, none, ?_, hblocks, howned, hI.total_lt, hI.counted, hI.nodup, hI.framed,
      hI.patient, hI.noTimer, hI.noError, fun hne => absurd hlist hne⟩
    have hzero : ¬0 < s.state.mp.suspendThreadCount := by
      rw [hcount, hlist]
      exact Nat.lt_irrefl 0
    simp only [rtMpFree, hI.owned block hmem, if_neg hzero]
  | cons w rest =>
    have hnd := hI.nodup
    have henough := hI.enough (by rw [hlist]; exact List.cons_ne_nil w rest)
    rw [hlist] at hnd
    refine ⟨resumeFirst (putBlock s.state block) w rest, some w, ?_, hblocks, howned, hI.total_lt,
      ⟨?_, hI.counted.2⟩, List.perm_middle.nodup_iff.mp hnd, fun u hu => ?_, hI.patient, fun u hu => ?_,
      fun u hu => ?_, fun _ => ?_⟩
    · have hpos : 0 < s.state.mp.suspendThreadCount := by
        rw [hcount, hlist]
        exact Nat.succ_pos _
      simp only [rtMpFree, hI.owned block hmem, if_pos hpos, hlist]
    · simp only [Sys.recordFree, resumeFirst, putBlock, hcount, hlist, List.length_cons, Nat.add_sub_cancel]
    · refine hI.framed u ?_
      simp only [Sys.recordFree, resumeFirst, Option.toList_some, List.cons_append, List.nil_append,
        List.mem_cons] at hu
      rw [hlist, List.mem_cons]
      tauto
    · have hne : u ≠ w := by
        rintro rfl
        exact (List.nodup_cons.mp hnd.of_append_right).1 hu
      simp only [Sys.recordFree, resumeFirst, Function.update_of_ne hne]
      exact hI.noTimer u (by rw [hlist]; exact List.mem_cons_of_mem w hu)
    · simp only [Sys.recordFree, Option.toList_some, List.cons_append, List.nil_append, List.mem_cons] at hu
      by_cases huw : u = w
      · simp [Sys.recordFree, resumeFirst, huw, Thread.resume]
      · simp only [Sys.recordFree, resumeFirst, Function.update_of_ne huw]
        exact hI.noError u (hu.resolve_left huw)
    · simp only [Sys.recordFree, resumeFirst, putBlock, Option.toList_some, List.cons_append, List.nil_append,
        List.length_cons, hinc]
      omega

def Act.untimed : Act T → Prop
  | .alloc _ time => time ≤ 0
  | _ => True

theorem recalculate_of_nonpos {time : ℤ} (h : ¬0 < time) (beforeSleep now : ℕ) :
    (recalculate time beforeSleep now).1 = time := by
  rw [recalculate, if_neg h]

omit [DecidableEq T] in
theorem Inv.weaken {s : Sys T} (h : Inv 0 s) : Inv 1 s :=
  { h with enough := fun hne => Nat.le_succ_of_le (h.enough hne) }

theorem step_inv {s s' : Sys T} {a : Act T} (hI : Inv 0 s) (ha : a.untimed) (h : step s a = some s') :
    Inv 0 s' := by
  obtain ⟨-, hcases⟩ := step_cases h
  rcases hcases with ⟨t, time, r, rfl, hf, hr, rfl⟩ | ⟨t, f, r, rfl, ht, hf, hr, rfl⟩ |
    ⟨block, r, rfl, hmem, hr, rfl⟩ | ⟨t, rfl, ht, htimer, rfl⟩ | ⟨rfl, rfl⟩
  · exact rtMpAllocPass_inv hI.weaken hf ha hr
  · -- the woken thread is outside of the pool now, and the block freed for it may still be there
    have hneg := hI.patient t f hf
    have hnd := hI.nodup
    have hnd' : (s.woken.erase t ++ s.state.mp.suspendThread).Nodup :=
      hnd.sublist (List.erase_sublist.append_right _)
    have hmem : ∀ u, u ∈ s.woken.erase t ∨ u ∈ s.state.mp.suspendThread →
        u ≠ t ∧ (u ∈ s.woken ∨ u ∈ s.state.mp.suspendThread) := by
      intro u hu
      rcases hu with hu | hu
      · have := (hnd.of_append_left.mem_erase_iff).mp hu
        exact ⟨this.1, Or.inl this.2⟩
      · refine ⟨?_, Or.inr hu⟩
        rintro rfl
        exact List.disjoint_of_nodup_append hnd ht hu
    have hI' : Inv 1 { s with woken := s.woken.erase t, frame := Function.update s.frame t none } := by
      refine ⟨hI.blocks, hI.owned, hI.total_lt, hI.counted, hnd', fun u hu => ?_, fun u g hg => ?_,
        hI.noTimer, fun u hu => hI.noError u (List.mem_of_mem_erase hu), fun hne => ?_⟩
      · obtain ⟨hut, hu⟩ := hmem u hu
        simp only [Function.update_of_ne hut]
        exact hI.framed u hu
      · by_cases hut : u = t
        · simp [hut] at hg
        · simp only [Function.update_of_ne hut] at hg
          exact hI.patient u g hg
      · have hbound := hI.enough hne
        have hpos := List.length_pos_of_mem ht
        simp only [List.length_erase_of_mem ht]
        omega
    rw [rtMpAllocResume, if_neg (not_not.mpr (hI.noError t ht)), recalculate_of_nonpos (by omega)] at hr
    have hpass := rtMpAllocPass_inv hI' (Function.update_self ..) hneg.le hr
    have hrecord : ({ s with woken := s.woken.erase t } : Sys T).record t r =
        ({ s with woken := s.woken.erase t, frame := Function.update s.frame t none } : Sys T).record t r := by
      unfold Sys.record
      cases r.2 <;> simp only [Function.update_idem]
    rw [hrecord]
    exact hpass
  · obtain ⟨s', woken, hfree, hI'⟩ := rtMpFree_spec hI hmem
    rw [hfree] at hr
    cases hr
    exact hI'
  · rw [hI.noTimer t ht] at htimer
    cases htimer
  · exact ⟨hI.blocks, hI.owned, hI.total_lt, hI.counted, hI.nodup, hI.framed, hI.patient, hI.noTimer,
      hI.noError, hI.enough⟩

theorem rtMpAlloc_isSome {s : Sys T} (hI : Inv 0 s) (t : T) (time : ℤ) : (rtMpAlloc s.state t time).isSome = true := by
  unfold rtMpAlloc rtMpAllocPass
  split
  · split <;> rfl
  · rename_i hpos
    obtain ⟨l, hl, hlen, hperm⟩ := hI.blocks
    have hnd : l.Nodup := ((hperm.nodup_iff).mpr List.nodup_range).of_append_left
    obtain ⟨i, l', s', -, htake, -⟩ := takeBlock_spec hl hlen hpos hnd
    rw [htake]
    rfl

/-- For every pool with a block and every run in which threads wait forever or not at all: the
free count is the length of the free list, each block of the pool is once on the free list or
allocated, no assertion fails, and when no woken thread is still to look at the pool, threads
wait only while no block is free. -/
theorem pool_blocks_conserved {k : ℕ} {word : ℕ → Link} {size blockSize : ℕ} {thread : T → Thread} {tick : ℕ}
    {acts : List (Act T)} {s : Sys T} (hsize : size < 2 ^ 32)
    (hblock : 0 < (rtMpInit k word size blockSize thread tick).mp.blockTotalCount)
    (hacts : ∀ a ∈ acts, a.untimed)
    (hrun : exec step (start (rtMpInit k word size blockSize thread tick)) acts = some s) :
    (∃ l, FreeList s.state l ∧ s.state.mp.blockFreeCount = l.length ∧
      (l ++ s.allocated).Perm (List.range s.state.mp.blockTotalCount)) ∧
    (∀ t time, (rtMpAlloc s.state t time).isSome = true) ∧
    (∀ i ∈ s.allocated, ∃ s' woken, rtMpFree s.state i = some (.freed s' woken)) ∧
    (s.woken = [] → s.state.mp.suspendThread ≠ [] → s.state.mp.blockFreeCount = 0) := by
  have hI : Inv 0 s := exec_inv_of_forall (Inv 0) Act.untimed (fun _ _ _ => step_inv)
    (start_inv k word blockSize thread tick hsize hblock) hacts hrun
  refine ⟨hI.blocks, rtMpAlloc_isSome hI, fun i hi => ?_, fun hwoken hne => ?_⟩
  · obtain ⟨s', woken, hfree, -⟩ := rtMpFree_spec hI hi
    exact ⟨s', woken, hfree⟩
  · have hbound := hI.enough hne
    rw [hwoken] at hbound
    exact Nat.le_zero.mp hbound

/-- Two blocks. Thread 3 waits and is woken by a free, but thread 1 takes the block first. -/
def overtakenRun : List (Act ℕ) :=
  [.alloc 1 (-1), .alloc 2 0, .alloc 3 (-1), .free 0, .alloc 1 0, .resume 3]

instance (a : Act ℕ) : Decidable a.untimed := by
  cases a <;> unfold Act.untimed <;> infer_instance

theorem pool_blocks_conserved_overtaken :
    ∃ s, exec step (start (rtMpInit 2 (fun _ => .null) 24 8 (fun t : ℕ => rtThreadInit t) 0)) overtakenRun = some s ∧
      s.state.mp.suspendThread = [3] ∧ s.allocated = [0, 1] ∧ s.state.mp.blockFreeCount = 0 := by
  refine ⟨_, rfl, by decide, by decide, ?_⟩
  have h := @pool_blocks_conserved ℕ _ 2 (fun _ => .null) 24 8 (fun t => rtThreadInit t) 0 overtakenRun _
    (by decide) (by decide) (by decide) rfl
  exact h.2.2.2 (by decide) (by decide)

end RtThread.Memory.MemPool
