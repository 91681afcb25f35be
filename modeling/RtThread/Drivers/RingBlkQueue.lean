import RtThread.Drivers.RingBlkBufRuns

/-!
# Block queues (`ringblk_buf.c`)

`rt_rbb_blk_queue_get` takes its blocks off `blk_list`, and `rt_rbb_blk_alloc` sees only that list;
a queue is known by its first block and a number, and its other blocks are taken to be the next
entries of `blk_set`. The memory of a queue is reserved in every run in which the gap that a block
is cut from has no block of a queue in it, and in which the blocks a queue is made of follow one
another in `blk_set` and in the buffer.
-/

namespace RtThread.Drivers.RingBlkBuf.Queue

open RtThread.Lib.Rotation RtThread.Lib.Transition RtThread.Lib.Word

/-- A queue that was obtained, and the blocks that were taken off the list for it. -/
structure Held where
  queue : RtRbbBlkQueue
  taken : List ℕ
  deriving DecidableEq

structure Sys where
  rbb : RtRbb
  held : List Held

def start (rbb : RtRbb) : Sys := ⟨rbb, []⟩

inductive Act where
  | alloc (blkSize : ℕ)
  | put (block : ℕ)
  | queueGet (queueDataLen : ℕ)
  | queueFree (h : Held)
  deriving DecidableEq

/-- The caller's queue is written only when there is a block with the status `put`. -/
def Sys.get (s : Sys) (queueDataLen : ℕ) : Sys :=
  let r := rtRbbBlkQueueGet s.rbb queueDataLen
  match r.blkQueue with
  | none => { s with rbb := r.rbb }
  | some queue => ⟨r.rbb, ⟨queue, s.rbb.blkList.filter fun i => i ∉ r.rbb.blkList⟩ :: s.held⟩

def step (s : Sys) : Act → Option Sys
  | .alloc n =>
    if 0 < n ∧ n ≤ s.rbb.bufSize ∧ n < 2 ^ 24 then some { s with rbb := (rtRbbBlkAlloc s.rbb n).1 } else none
  | .put block =>
    if block < s.rbb.blkMaxNum ∧ (s.rbb.blkSet block).status = .inited then
      some { s with rbb := rtRbbBlkPut s.rbb block }
    else none
  | .queueGet queueDataLen => some (s.get queueDataLen)
  | .queueFree h =>
    if h ∈ s.held then some ⟨rtRbbBlkQueueFree s.rbb h.queue, s.held.erase h⟩ else none

/-- The bytes from `rt_rbb_blk_queue_buf` on, `rt_rbb_blk_queue_len` of them. -/
def memory (rbb : RtRbb) (queue : RtRbbBlkQueue) : Set ℕ :=
  Set.Ico (rtRbbBlkQueueBuf rbb queue) (rtRbbBlkQueueBuf rbb queue + rtRbbBlkQueueLen rbb queue)

/-- The blocks of the queue are kept, their memory is the one the queue describes, and every other
block that is handed out lies outside it. -/
structure Reserved (rbb : RtRbb) (h : Held) : Prop where
  kept : ∀ i ∈ h.taken, (rbb.blkSet i).status = .get
  contiguous : (⋃ i ∈ h.taken, range rbb i) = memory rbb h.queue
  apart : ∀ i < rbb.blkMaxNum, (rbb.blkSet i).status ≠ .unused → i ∉ h.taken →
    Disjoint (range rbb i) (memory rbb h.queue)

/-- The blocks behind `last` that `rt_rbb_blk_queue_get` can take are its neighbours: the next entry
of `blk_set`, and the next bytes of the buffer. -/
def Neighbours (rbb : RtRbb) (queueDataLen : ℕ) : ℕ → ℕ → List ℕ → Prop
  | _, _, [] => True
  | total, last, i :: rest =>
    (rbb.blkSet i).status = .put → (rbb.blkSet last).buf ≤ (rbb.blkSet i).buf →
      total + (rbb.blkSet i).size ≤ queueDataLen →
      i = last + 1 ∧ (rbb.blkSet i).buf = rbb.blkEnd last ∧
        Neighbours rbb queueDataLen (total + (rbb.blkSet i).size) i rest

instance Neighbours.decidable (rbb : RtRbb) (queueDataLen : ℕ) :
    (total last : ℕ) → (l : List ℕ) → Decidable (Neighbours rbb queueDataLen total last l)
  | _, _, [] => isTrue trivial
  | total, last, i :: rest =>
    have := Neighbours.decidable rbb queueDataLen (total + (rbb.blkSet i).size) i rest
    inferInstanceAs (Decidable ((rbb.blkSet i).status = .put → (rbb.blkSet last).buf ≤ (rbb.blkSet i).buf → _ → _))

/-- The same from the first block with the status `put` on. -/
def NeighboursFrom (rbb : RtRbb) (queueDataLen : ℕ) : List ℕ → Prop
  | [] => True
  | i :: rest =>
    if (rbb.blkSet i).status = .put then Neighbours rbb queueDataLen (rbb.blkSet i).size i rest
    else NeighboursFrom rbb queueDataLen rest

instance NeighboursFrom.decidable (rbb : RtRbb) (queueDataLen : ℕ) :
    (l : List ℕ) → Decidable (NeighboursFrom rbb queueDataLen l)
  | [] => isTrue trivial
  | i :: rest =>
    have := NeighboursFrom.decidable rbb queueDataLen rest
    inferInstanceAs (Decidable (if (rbb.blkSet i).status = .put then Neighbours rbb queueDataLen (rbb.blkSet i).size i rest
      else NeighboursFrom rbb queueDataLen rest))

/-- The step does not meet the defect of the code. -/
def Safe (s : Sys) : Act → Prop
  | .alloc n => Available s.rbb n → ∀ h ∈ s.held, ∀ i ∈ h.taken,
      s.rbb.blkEnd i ≤ (gap s.rbb n).1 ∨ (gap s.rbb n).2 ≤ (s.rbb.blkSet i).buf
  | .put _ => True
  | .queueGet queueDataLen => NeighboursFrom s.rbb queueDataLen s.rbb.blkList
  | .queueFree _ => True

instance Safe.decidable (s : Sys) : (a : Act) → Decidable (Safe s a)
  | .alloc n => inferInstanceAs (Decidable (Available s.rbb n → ∀ h ∈ s.held, ∀ i ∈ h.taken,
      s.rbb.blkEnd i ≤ (gap s.rbb n).1 ∨ (gap s.rbb n).2 ≤ (s.rbb.blkSet i).buf))
  | .put _ => isTrue trivial
  | .queueGet queueDataLen => NeighboursFrom.decidable s.rbb queueDataLen s.rbb.blkList
  | .queueFree _ => isTrue trivial

/-! ### The invariant -/

def Apart (rbb : RtRbb) (i j : ℕ) : Prop := rbb.blkEnd i ≤ (rbb.blkSet j).buf ∨ rbb.blkEnd j ≤ (rbb.blkSet i).buf

theorem Apart.symm {rbb : RtRbb} {i j : ℕ} (h : Apart rbb i j) : Apart rbb j i := Or.symm h

instance (rbb : RtRbb) : Std.Symm (Apart rbb) := ⟨fun _ _ => Apart.symm⟩

theorem Apart.disjoint {rbb : RtRbb} {i j : ℕ} (h : Apart rbb i j) : Disjoint (range rbb i) (range rbb j) := by
  rcases h with h | h
  · exact Before.disjoint h
  · exact (Before.disjoint h).symm

/-- The queue stands for its blocks: they are neighbours in `blk_set` and in the buffer. -/
structure Joins (rbb : RtRbb) (h : Held) : Prop where
  pos : 0 < h.queue.blkNum
  perm : h.taken.Perm (List.range' h.queue.blocks h.queue.blkNum)
  adjacent : ∀ k, k + 1 < h.queue.blkNum →
    (rbb.blkSet (h.queue.blocks + k + 1)).buf = rbb.blkEnd (h.queue.blocks + k)

/-- What holds of the list and of the blocks `out` that are off the list, in any order. -/
structure Core (rbb : RtRbb) (out : List ℕ) : Prop where
  arranged : Arranged rbb
  nodup : (rbb.blkList ++ out).Nodup
  apart : (rbb.blkList ++ out).Pairwise (Apart rbb)
  inside : ∀ i ∈ out, rbb.blkEnd i ≤ rbb.buf + rbb.bufSize
  listed : ∀ i ∈ rbb.blkList, (rbb.blkSet i).status = .inited ∨ (rbb.blkSet i).status = .put
  got : ∀ i ∈ out, (rbb.blkSet i).status = .get
  covered : ∀ i < rbb.blkMaxNum, (rbb.blkSet i).status ≠ .unused → i ∈ rbb.blkList ++ out

structure Inv (s : Sys) : Prop where
  core : Core s.rbb (s.held.flatMap Held.taken)
  joins : ∀ h ∈ s.held, Joins s.rbb h

variable {rbb : RtRbb} {out out' : List ℕ} {h : Held} {i n : ℕ}

theorem apart_of_layout {r r' : RtRbb} (hl : SameLayout r r') {i j : ℕ} (ha : Apart r i j) : Apart r' i j := by
  rwa [Apart, hl.blkEnd, hl.blkEnd, hl.blkBuf, hl.blkBuf]

theorem joins_of_layout {r r' : RtRbb} (hl : SameLayout r r') (hj : Joins r h) : Joins r' h :=
  ⟨hj.pos, hj.perm, fun k hk => by rw [hl.blkBuf, hl.blkEnd]; exact hj.adjacent k hk⟩

theorem Core.perm (hc : Core rbb out) (hp : out.Perm out') : Core rbb out' where
  arranged := hc.arranged
  nodup := (hp.append_left _).nodup_iff.mp hc.nodup
  apart := (hp.append_left _).pairwise hc.apart Apart.symm
  inside i hi := hc.inside i (hp.mem_iff.mpr hi)
  listed := hc.listed
  got i hi := hc.got i (hp.mem_iff.mpr hi)
  covered i hi hs := (hp.append_left _).mem_iff.mp (hc.covered i hi hs)

theorem Core.put (hc : Core rbb out) (hi : i ∈ rbb.blkList) : Core (rtRbbBlkPut rbb i) out := by
  have hlay : SameLayout rbb (rtRbbBlkPut rbb i) := setStatus_layout rbb i .put
  refine ⟨hc.arranged.sublist hlay (List.Sublist.refl _), hc.nodup, hc.apart.imp (apart_of_layout hlay), fun j hj => ?_,
    fun j hj => ?_, fun j hj => ?_, fun j hj hs => ?_⟩
  · rw [hlay.blkEnd]
    exact hc.inside j hj
  · by_cases he : j = i
    · rw [he, rtRbbBlkPut, setStatus_status_self]
      exact Or.inr rfl
    · rw [rtRbbBlkPut, setStatus_status_of_ne _ _ _ _ he]
      exact hc.listed j hj
  · have hne : j ≠ i := fun he => (List.nodup_append.mp hc.nodup).2.2 i hi j hj he.symm
    rw [rtRbbBlkPut, setStatus_status_of_ne _ _ _ _ hne]
    exact hc.got j hj
  · by_cases he : j = i
    · rw [he]
      exact List.mem_append_left _ hi
    · rw [rtRbbBlkPut, setStatus_status_of_ne _ _ _ _ he] at hs
      exact hc.covered j hj hs

/-- The loop's body takes a block off the list. -/
def takeOff (rbb : RtRbb) (i : ℕ) : RtRbb := { rbb.setStatus i .get with blkList := rbb.blkList.erase i }

theorem takeOff_layout (rbb : RtRbb) (i : ℕ) : SameLayout rbb (takeOff rbb i) :=
  ⟨rfl, rfl, rfl, fun _ => setStatus_buf .., fun _ => setStatus_size ..⟩

theorem takeOff_status_of_ne (rbb : RtRbb) {i j : ℕ} (hne : j ≠ i) :
    ((takeOff rbb i).blkSet j).status = (rbb.blkSet j).status := setStatus_status_of_ne _ _ _ _ hne

theorem Core.take (hc : Core rbb out) (hi : i ∈ rbb.blkList) : Core (takeOff rbb i) (i :: out) := by
  have hlay := takeOff_layout rbb i
  have hnodup := List.nodup_append.mp hc.nodup
  have hperm : ((takeOff rbb i).blkList ++ i :: out).Perm (rbb.blkList ++ out) :=
    List.perm_middle.trans ((List.perm_cons_erase hi).symm.append_right out)
  refine ⟨hc.arranged.sublist hlay List.erase_sublist, hperm.nodup_iff.mpr hc.nodup,
    hperm.symm.pairwise (hc.apart.imp (apart_of_layout hlay)) Apart.symm, fun j hj => ?_, fun j hj => ?_, fun j hj => ?_,
    fun j hj hs => hperm.mem_iff.mpr ?_⟩
  · rw [hlay.blkEnd]
    rcases List.mem_cons.mp hj with rfl | hj
    · exact (hc.arranged.inside j hi).2
    · exact hc.inside j hj
  · obtain ⟨hne, hj⟩ := hnodup.1.mem_erase_iff.mp hj
    rw [takeOff_status_of_ne rbb hne]
    exact hc.listed j hj
  · rcases List.mem_cons.mp hj with rfl | hj
    · exact setStatus_status_self ..
    · rw [takeOff_status_of_ne rbb fun he => hnodup.2.2 i hi j hj he.symm]
      exact hc.got j hj
  · by_cases he : j = i
    · rw [he]
      exact List.mem_append_left _ hi
    · rw [takeOff_status_of_ne rbb he] at hs
      exact hc.covered j hj hs

theorem Core.free (hc : Core rbb (i :: out)) : Core (rtRbbBlkFree rbb i) out := by
  have hlay := free_layout rbb i
  have hnodup := List.nodup_append.mp hc.nodup
  have hnot : i ∉ rbb.blkList := fun hi => hnodup.2.2 i hi i List.mem_cons_self rfl
  have hlist : (rtRbbBlkFree rbb i).blkList = rbb.blkList := List.erase_of_not_mem hnot
  have hstatus {j : ℕ} (hne : j ≠ i) : ((rtRbbBlkFree rbb i).blkSet j).status = (rbb.blkSet j).status :=
    setStatus_status_of_ne _ _ _ _ hne
  have hsub : List.Sublist (rbb.blkList ++ out) (rbb.blkList ++ i :: out) :=
    (List.sublist_cons_self i out).append_left _
  refine ⟨hc.arranged.sublist hlay List.erase_sublist, ?_, ?_, fun j hj => ?_, fun j hj => ?_, fun j hj => ?_,
    fun j hj hs => ?_⟩
  · rw [hlist]
    exact hc.nodup.sublist hsub
  · rw [hlist]
    exact (hc.apart.sublist hsub).imp (apart_of_layout hlay)
  · rw [hlay.blkEnd]
    exact hc.inside j (List.mem_cons_of_mem i hj)
  · rw [hlist] at hj
    rw [hstatus fun he => hnot (he ▸ hj)]
    exact hc.listed j hj
  · rw [hstatus fun he => (List.nodup_cons.mp hnodup.2.1).1 (he ▸ hj)]
    exact hc.got j (List.mem_cons_of_mem i hj)
  · by_cases he : j = i
    · rw [he] at hs
      exact absurd (setStatus_status_self ..) hs
    · rw [hstatus he] at hs
      rw [hlist]
      rcases List.mem_append.mp (hc.covered j hj hs) with hm | hm
      · exact List.mem_append_left _ hm
      · exact List.mem_append_right _ ((List.mem_cons.mp hm).resolve_left he)

theorem Core.freeAll {l : List ℕ} (hc : Core rbb (l ++ out)) : Core (l.foldl rtRbbBlkFree rbb) out := by
  induction l generalizing rbb with
  | nil => exact hc
  | cons i l ih => exact ih hc.free

theorem freeAll_layout (l : List ℕ) (rbb : RtRbb) : SameLayout rbb (l.foldl rtRbbBlkFree rbb) := by
  induction l generalizing rbb with
  | nil => exact SameLayout.refl rbb
  | cons i l ih => exact (free_layout rbb i).trans (ih _)

theorem queueFree_eq (rbb : RtRbb) (queue : RtRbbBlkQueue) :
    rtRbbBlkQueueFree rbb queue = (List.range' queue.blocks queue.blkNum).foldl rtRbbBlkFree rbb := by
  rw [rtRbbBlkQueueFree, List.range'_eq_map_range, List.foldl_map]

theorem Core.alloc (hc : Core rbb out) (hpos : 0 < n) (hle : n ≤ rbb.bufSize) (hn : n < 2 ^ 24)
    (hclear : Available rbb n → ∀ i ∈ out, rbb.blkEnd i ≤ (gap rbb n).1 ∨ (gap rbb n).2 ≤ (rbb.blkSet i).buf) :
    Core (rtRbbBlkAlloc rbb n).1 out := by
  rcases rtRbbBlkAlloc_eq hc.arranged hle with ⟨-, heq⟩ | ⟨havail, new, hfind, heq⟩ <;> rw [heq]
  · exact hc
  · obtain ⟨hlt, hunused⟩ := findEmpty_spec hfind
    have hnotList : new ∉ rbb.blkList := fun hm => by
      rcases hc.listed new hm with hs | hs <;> rw [hunused] at hs <;> cases hs
    have hnotOut : new ∉ out := fun hm => by
      have hs := hc.got new hm
      rw [hunused] at hs
      cases hs
    have hnotMem : new ∉ rbb.blkList ++ out := fun hm => (List.mem_append.mp hm).elim hnotList hnotOut
    have hself := append_blkSet_self rbb new (gap rbb n).1 n
    rw [Nat.mod_eq_of_lt hn] at hself
    have hother {j : ℕ} (hne : j ≠ new) : (rbb.append new (gap rbb n).1 n).blkSet j = rbb.blkSet j :=
      append_blkSet_of_ne rbb _ n hne
    have harr := hc.arranged.append hnotList hpos hn havail.2.2
    have hperm : ((rbb.append new (gap rbb n).1 n).blkList ++ out).Perm (new :: (rbb.blkList ++ out)) :=
      (List.perm_append_singleton new rbb.blkList).append_right out
    refine ⟨harr, hperm.nodup_iff.mpr (List.nodup_cons.mpr ⟨hnotMem, hc.nodup⟩),
      hperm.symm.pairwise (List.pairwise_cons.mpr ⟨fun j hj => ?_, ?_⟩) Apart.symm, fun j hj => ?_, fun j hj => ?_,
      fun j hj => ?_, fun j hj hs => hperm.mem_iff.mpr ?_⟩
    · rcases List.mem_append.mp hj with hj | hj
      · have hpair := harr.rotated.pairwise_or (P := Apart (rbb.append new (gap rbb n).1 n))
          (fun _ _ => Or.inl) fun _ _ => Apart.symm
        exact ((List.pairwise_append.mp hpair).2.2 j hj new (List.mem_singleton.mpr rfl)).symm
      · have hfit := havail.2.2
        rw [Apart, RtRbb.blkEnd, RtRbb.blkEnd, hself, hother fun he => hnotOut (he ▸ hj)]
        rcases hclear havail j hj with hd | hd
        · exact Or.inr hd
        · exact Or.inl (hfit.trans hd)
    · refine hc.apart.imp_of_mem fun {j k} hj hk hjk => ?_
      rwa [Apart, RtRbb.blkEnd, RtRbb.blkEnd, hother fun he => hnotMem (he ▸ hj), hother fun he => hnotMem (he ▸ hk)]
    · rw [RtRbb.blkEnd, hother fun he => hnotOut (he ▸ hj)]
      exact hc.inside j hj
    · by_cases he : j = new
      · rw [he, hself]
        exact Or.inl rfl
      · rw [hother he]
        exact hc.listed j ((List.mem_append.mp hj).resolve_right fun hs => he (List.mem_singleton.mp hs))
    · rw [hother fun he => hnotOut (he ▸ hj)]
      exact hc.got j hj
    · by_cases he : j = new
      · exact he ▸ List.mem_cons_self
      · rw [hother he] at hs
        exact List.mem_cons_of_mem new (hc.covered j hj hs)

/-! ### The length of a queue -/

theorem queueLen_succ (rbb : RtRbb) (blocks n : ℕ) :
    rtRbbBlkQueueLen rbb ⟨blocks, n + 1⟩ =
      add 32 (rtRbbBlkQueueLen rbb ⟨blocks, n⟩) (rbb.blkSet (blocks + n)).size := by
  simp only [rtRbbBlkQueueLen, List.range_succ, List.foldl_append, List.foldl_cons, List.foldl_nil]

theorem queueLen_eq {rbb : RtRbb} {blocks n : ℕ} (hadj : ∀ k, k + 1 < n + 1 →
      (rbb.blkSet (blocks + k + 1)).buf = rbb.blkEnd (blocks + k))
    (hinside : ∀ k < n + 1, rbb.blkEnd (blocks + k) < 2 ^ 32) :
    (rbb.blkSet blocks).buf + rtRbbBlkQueueLen rbb ⟨blocks, n + 1⟩ = rbb.blkEnd (blocks + n) := by
  have hend := hinside n (Nat.lt_succ_self n)
  rw [queueLen_succ]
  induction n with
  | zero =>
    have hlen : rtRbbBlkQueueLen rbb ⟨blocks, 0⟩ = 0 := rfl
    rw [Nat.add_zero, RtRbb.blkEnd] at hend ⊢
    rw [hlen, add_of_lt (by omega), Nat.zero_add]
  | succ n ih =>
    have hprev := ih (fun k hk => hadj k (by omega)) (fun k hk => hinside k (by omega)) (hinside n (by omega))
    have hnext := hadj n (by omega)
    rw [← queueLen_succ] at hprev
    rw [RtRbb.blkEnd, ← Nat.add_assoc, hnext, ← hprev] at hend ⊢
    rw [add_of_lt (by omega)]
    omega

theorem iUnion_range' {rbb : RtRbb} {blocks n : ℕ} (hadj : ∀ k, k + 1 < n + 1 →
      (rbb.blkSet (blocks + k + 1)).buf = rbb.blkEnd (blocks + k)) :
    (⋃ i ∈ List.range' blocks (n + 1), range rbb i) = Set.Ico (rbb.blkSet blocks).buf (rbb.blkEnd (blocks + n)) ∧
      (rbb.blkSet blocks).buf ≤ (rbb.blkSet (blocks + n)).buf := by
  induction n with
  | zero => simp [range]
  | succ n ih =>
    obtain ⟨hunion, hle⟩ := ih fun k hk => hadj k (by omega)
    have hnext := hadj n (by omega)
    have hend : (rbb.blkSet (blocks + n)).buf ≤ rbb.blkEnd (blocks + n) := Nat.le_add_right _ _
    have hlast : rbb.blkEnd (blocks + n) ≤ rbb.blkEnd (blocks + (n + 1)) := by
      rw [← hnext]
      exact Nat.le_add_right _ _
    refine ⟨?_, ?_⟩
    · rw [List.range'_concat, Nat.one_mul]
      simp only [List.mem_append, List.mem_singleton, Set.iUnion_or, Set.iUnion_union_distrib,
        Set.iUnion_iUnion_eq_left]
      rw [hunion, range, ← Nat.add_assoc, hnext]
      exact Set.Ico_union_Ico_eq_Ico (hle.trans hend) hlast
    · rw [← Nat.add_assoc, hnext]
      exact hle.trans hend

theorem Inv.reserved {s : Sys} (hinv : Inv s) {h : Held} (hh : h ∈ s.held) : Reserved s.rbb h := by
  have hc := hinv.core
  have hj := hinv.joins h hh
  have hout : ∀ i ∈ h.taken, i ∈ s.held.flatMap Held.taken := fun i hi => List.mem_flatMap.mpr ⟨h, hh, hi⟩
  obtain ⟨⟨blocks, num⟩, taken⟩ := h
  obtain ⟨n, rfl⟩ : ∃ n, num = n + 1 := Nat.exists_eq_succ_of_ne_zero (Nat.ne_of_gt hj.pos)
  have hinside : ∀ k < n + 1, s.rbb.blkEnd (blocks + k) < 2 ^ 32 := fun k hk => by
    have hmem : blocks + k ∈ taken :=
      hj.perm.mem_iff.mpr (List.mem_range'_1.mpr ⟨Nat.le_add_right _ _, Nat.add_lt_add_left hk _⟩)
    exact (hc.inside _ (hout _ hmem)).trans_lt hc.arranged.bound
  have hunion : (⋃ i ∈ taken, range s.rbb i) = memory s.rbb ⟨blocks, n + 1⟩ := by
    simp only [hj.perm.mem_iff]
    rw [(iUnion_range' hj.adjacent).1, memory, rtRbbBlkQueueBuf, queueLen_eq hj.adjacent hinside]
  refine ⟨fun i hi => hc.got i (hout i hi), hunion, fun i hi hs hnot => ?_⟩
  rw [← hunion]
  refine Set.disjoint_iUnion₂_right.mpr fun j hjt => Apart.disjoint ?_
  have hne : i ≠ j := fun he => hnot (he ▸ hjt)
  exact hc.apart.forall (hc.covered i hi hs) (List.mem_append_right _ (hout j hjt)) hne

/-! ### The loop of `rt_rbb_blk_queue_get` -/

theorem Neighbours.congr {r r' : RtRbb} {len : ℕ} (hlay : SameLayout r r') :
    ∀ {l : List ℕ} {total last : ℕ}, (∀ i ∈ l, (r'.blkSet i).status = (r.blkSet i).status) →
      Neighbours r len total last l → Neighbours r' len total last l
  | [], _, _, _, _ => trivial
  | i :: l, total, last, hstatus, hnext => by
    intro hput hbuf hfit
    rw [hstatus i List.mem_cons_self] at hput
    rw [hlay.blkBuf, hlay.blkBuf] at hbuf
    rw [hlay.blkSize] at hfit ⊢
    rw [hlay.blkBuf, hlay.blkEnd]
    obtain ⟨hi, he, hrest⟩ := hnext hput hbuf hfit
    exact ⟨hi, he, Neighbours.congr hlay (fun j hj => hstatus j (List.mem_cons_of_mem i hj)) hrest⟩

/-- The queue under construction, and the distance from its first byte to its last. -/
structure Building (v : QueueGet) (held : List Held) (h : Held) (last : ℕ) : Prop where
  inv : Inv ⟨v.rbb, h :: held⟩
  queue_eq : v.blkQueue = some h.queue
  last_eq : v.lastBlock = some last
  last_next : last + 1 = h.queue.blocks + h.queue.blkNum
  total_eq : (v.rbb.blkSet h.queue.blocks).buf + v.dataTotalSize = v.rbb.blkEnd last

theorem Joins.snoc {h : Held} {last node : ℕ} (hj : Joins rbb h) (hlast : last + 1 = h.queue.blocks + h.queue.blkNum)
    (hnode : node = last + 1) (hbuf : (rbb.blkSet node).buf = rbb.blkEnd last) :
    Joins rbb ⟨{ h.queue with blkNum := h.queue.blkNum + 1 }, node :: h.taken⟩ := by
  refine ⟨Nat.succ_pos _, ?_, fun k hk => ?_⟩
  · simp only
    rw [List.range'_concat, Nat.one_mul, ← hlast, ← hnode]
    exact (hj.perm.cons node).trans (List.perm_append_singleton node _).symm
  · simp only at hk ⊢
    by_cases he : k + 1 < h.queue.blkNum
    · exact hj.adjacent k he
    · have hk' : h.queue.blocks + k = last := by omega
      rw [hk', ← hnode]
      exact hbuf

theorem Building.take {v : QueueGet} {held : List Held} {h : Held} {last node : ℕ} (hb : Building v held h last)
    (hmem : node ∈ v.rbb.blkList) (hnode : node = last + 1) (hbuf : (v.rbb.blkSet node).buf = v.rbb.blkEnd last)
    (hfit : v.dataTotalSize + (v.rbb.blkSet node).size < 2 ^ 32) :
    Building (v.take node h.queue) held ⟨{ h.queue with blkNum := h.queue.blkNum + 1 }, node :: h.taken⟩ node := by
  have hlay : SameLayout v.rbb (v.take node h.queue).rbb := takeOff_layout v.rbb node
  have hhead := hb.inv.joins h List.mem_cons_self
  refine ⟨⟨hb.inv.core.take hmem, fun g hg => ?_⟩, rfl, rfl, ?_, ?_⟩
  · rcases List.mem_cons.mp hg with rfl | hg
    · exact joins_of_layout hlay (hhead.snoc hb.last_next hnode hbuf)
    · exact joins_of_layout hlay (hb.inv.joins g (List.mem_cons_of_mem h hg))
  · simp only
    rw [hnode, hb.last_next, Nat.add_assoc]
  · rw [hlay.blkBuf, hlay.blkEnd, RtRbb.blkEnd, hbuf, ← hb.total_eq]
    simp only [QueueGet.take]
    rw [add_of_lt hfit, Nat.add_assoc]

/-- A block of the list that does not begin before the last one of the queue lies behind it, so that
the sum of the sizes does not wrap. -/
theorem Building.no_wrap {v : QueueGet} {held : List Held} {h : Held} {last node : ℕ} (hb : Building v held h last)
    (hmem : node ∈ v.rbb.blkList) (hbuf : (v.rbb.blkSet last).buf ≤ (v.rbb.blkSet node).buf) :
    v.dataTotalSize + (v.rbb.blkSet node).size < 2 ^ 32 := by
  have hc := hb.inv.core
  have hj := hb.inv.joins h List.mem_cons_self
  have hnum := hj.pos
  have hnext := hb.last_next
  have htaken : last ∈ h.taken := hj.perm.mem_iff.mpr (List.mem_range'_1.mpr ⟨by omega, by omega⟩)
  have hout : last ∈ (h :: held).flatMap Held.taken := List.mem_flatMap.mpr ⟨h, List.mem_cons_self, htaken⟩
  have hne : last ≠ node := fun he => (List.nodup_append.mp hc.nodup).2.2 node hmem last hout he.symm
  have hapart : Apart v.rbb last node :=
    hc.apart.forall (List.mem_append_right _ hout) (List.mem_append_left _ hmem) hne
  have htotal := hb.total_eq
  have hpos := hc.arranged.pos node hmem
  have hin := (hc.arranged.inside node hmem).2
  have hbound := hc.arranged.bound
  simp only at hpos hin hbound
  unfold Apart at hapart
  unfold RtRbb.blkEnd at hapart htotal hin
  omega

theorem queueGetLoop_building {len : ℕ} {held : List Held} {nodes : List ℕ} {v : QueueGet} {h : Held} {last : ℕ}
    (hb : Building v held h last) (hsub : List.Sublist nodes v.rbb.blkList)
    (hnb : Neighbours v.rbb len v.dataTotalSize last nodes) :
    ∃ h' last', Building (queueGetLoop len nodes v) held h' last' ∧
      (h'.taken ++ (queueGetLoop len nodes v).rbb.blkList).Perm (h.taken ++ v.rbb.blkList) := by
  induction nodes generalizing v h last with
  | nil => exact ⟨h, last, hb, List.Perm.refl _⟩
  | cons node nodes ih =>
    have hmem : node ∈ v.rbb.blkList := hsub.subset List.mem_cons_self
    have hnodup : v.rbb.blkList.Nodup := (List.nodup_append.mp hb.inv.core.nodup).1
    simp only [queueGetLoop, hb.last_eq, hb.queue_eq]
    split
    · exact ⟨h, last, hb, List.Perm.refl _⟩
    · rename_i hgo
      simp only [not_or, not_lt, not_not] at hgo
      obtain ⟨hput, hbuf, hfit⟩ := hgo
      have hwrap := hb.no_wrap hmem hbuf
      rw [add_of_lt hwrap] at hfit
      obtain ⟨hnode, hend, hrest⟩ := hnb hput hbuf hfit
      have hsub' : List.Sublist nodes (v.rbb.blkList.erase node) := by
        have := hsub.erase node
        rwa [List.erase_cons_head] at this
      have hstatus : ∀ j ∈ nodes, ((takeOff v.rbb node).blkSet j).status = (v.rbb.blkSet j).status := fun j hj =>
        takeOff_status_of_ne v.rbb fun he => (List.nodup_cons.mp (hnodup.sublist hsub)).1 (he ▸ hj)
      have hrest' : Neighbours (v.take node h.queue).rbb len (v.take node h.queue).dataTotalSize node nodes := by
        have htotal : (v.take node h.queue).dataTotalSize = v.dataTotalSize + (v.rbb.blkSet node).size :=
          add_of_lt hwrap
        rw [htotal]
        exact Neighbours.congr (takeOff_layout v.rbb node) hstatus hrest
      obtain ⟨h', last', hb', hperm⟩ := ih (hb.take hmem hnode hend hwrap) hsub' hrest'
      refine ⟨h', last', hb', hperm.trans ?_⟩
      simp only [List.cons_append]
      exact List.perm_middle.symm.trans ((List.perm_cons_erase hmem).symm.append_left h.taken)

theorem zero_add_size (ha : Arranged rbb) {node : ℕ} (hmem : node ∈ rbb.blkList) :
    add 32 0 (rbb.blkSet node).size = (rbb.blkSet node).size := by
  have hin := (ha.inside node hmem).2
  have hbound := ha.bound
  unfold RtRbb.blkEnd at hin
  rw [add_of_lt (by omega), Nat.zero_add]

theorem Building.first {held : List Held} {node : ℕ} (hinv : Inv ⟨rbb, held⟩) (hmem : node ∈ rbb.blkList) :
    Building ((⟨rbb, 0, none, none⟩ : QueueGet).take node ⟨node, 0⟩) held ⟨⟨node, 1⟩, [node]⟩ node := by
  have hlay : SameLayout rbb (takeOff rbb node) := takeOff_layout rbb node
  refine ⟨⟨hinv.core.take hmem, fun g hg => ?_⟩, rfl, rfl, rfl, ?_⟩
  · rcases List.mem_cons.mp hg with rfl | hg
    · exact ⟨Nat.one_pos, List.Perm.refl _, fun k hk => by simp only at hk; omega⟩
    · exact joins_of_layout hlay (hinv.joins g hg)
  · show ((takeOff rbb node).blkSet node).buf + add 32 0 (rbb.blkSet node).size = (takeOff rbb node).blkEnd node
    rw [hlay.blkBuf, hlay.blkEnd, zero_add_size hinv.core.arranged hmem, RtRbb.blkEnd]

theorem queueGetLoop_first {len : ℕ} {held : List Held} {nodes : List ℕ} (hinv : Inv ⟨rbb, held⟩)
    (hsub : List.Sublist nodes rbb.blkList) (hnb : NeighboursFrom rbb len nodes) :
    ((queueGetLoop len nodes ⟨rbb, 0, none, none⟩).rbb = rbb ∧
        (queueGetLoop len nodes ⟨rbb, 0, none, none⟩).blkQueue = none) ∨
      ∃ h last, Building (queueGetLoop len nodes ⟨rbb, 0, none, none⟩) held h last ∧
        (h.taken ++ (queueGetLoop len nodes ⟨rbb, 0, none, none⟩).rbb.blkList).Perm rbb.blkList := by
  induction nodes with
  | nil => exact Or.inl ⟨rfl, rfl⟩
  | cons node nodes ih =>
    have hmem : node ∈ rbb.blkList := hsub.subset List.mem_cons_self
    have hnodup : rbb.blkList.Nodup := (List.nodup_append.mp hinv.core.nodup).1
    simp only [queueGetLoop]
    unfold NeighboursFrom at hnb
    split
    · rename_i hput
      rw [if_pos hput] at hnb
      have hb := Building.first hinv hmem
      have hsub' : List.Sublist nodes (rbb.blkList.erase node) := by
        have := hsub.erase node
        rwa [List.erase_cons_head] at this
      have hstatus : ∀ j ∈ nodes, ((takeOff rbb node).blkSet j).status = (rbb.blkSet j).status := fun j hj =>
        takeOff_status_of_ne rbb fun he => (List.nodup_cons.mp (hnodup.sublist hsub)).1 (he ▸ hj)
      have htotal : ((⟨rbb, 0, none, none⟩ : QueueGet).take node ⟨node, 0⟩).dataTotalSize = (rbb.blkSet node).size :=
        zero_add_size hinv.core.arranged hmem
      rw [← htotal] at hnb
      obtain ⟨h', last', hb', hperm⟩ :=
        queueGetLoop_building hb hsub' (Neighbours.congr (takeOff_layout rbb node) hstatus hnb)
      exact Or.inr ⟨h', last', hb', hperm.trans (List.perm_cons_erase hmem).symm⟩
    · rename_i hput
      rw [if_neg hput] at hnb
      exact ih ((List.sublist_cons_self node nodes).trans hsub) hnb

/-! ### Steps and runs -/

theorem Inv.get {s : Sys} {len : ℕ} (hinv : Inv s) (hsafe : NeighboursFrom s.rbb len s.rbb.blkList) :
    Inv (s.get len) := by
  unfold Sys.get rtRbbBlkQueueGet
  rcases queueGetLoop_first hinv (List.Sublist.refl _) hsafe with ⟨hrbb, hnone⟩ | ⟨h, last, hb, hperm⟩
  · simp only [hnone, hrbb]
    exact hinv
  · simp only [hb.queue_eq]
    generalize queueGetLoop len s.rbb.blkList ⟨s.rbb, 0, none, none⟩ = r at hb hperm ⊢
    have hnodup := hperm.nodup_iff.mpr (List.nodup_append.mp hinv.core.nodup).1
    -- the blocks that left the list are those of the queue
    have htaken : h.taken.Perm (s.rbb.blkList.filter fun i => i ∉ r.rbb.blkList) := by
      refine (List.perm_ext_iff_of_nodup (List.nodup_append.mp hnodup).1
        ((List.nodup_append.mp hinv.core.nodup).1.filter _)).mpr fun i => ?_
      rw [List.mem_filter, ← hperm.mem_iff, List.mem_append, decide_eq_true_eq]
      constructor
      · intro hi
        exact ⟨Or.inl hi, fun hmem => (List.nodup_append.mp hnodup).2.2 i hi i hmem rfl⟩
      · intro hi
        exact hi.1.resolve_right hi.2
    refine ⟨hb.inv.core.perm (htaken.append_right _), fun g hg => ?_⟩
    rcases List.mem_cons.mp hg with rfl | hg
    · have hj := hb.inv.joins h List.mem_cons_self
      exact ⟨hj.pos, htaken.symm.trans hj.perm, hj.adjacent⟩
    · exact hb.inv.joins g (List.mem_cons_of_mem h hg)

theorem Inv.queueFree {s : Sys} {h : Held} (hinv : Inv s) (hmem : h ∈ s.held) :
    Inv ⟨rtRbbBlkQueueFree s.rbb h.queue, s.held.erase h⟩ := by
  have hj := hinv.joins h hmem
  have hperm : (s.held.flatMap Held.taken).Perm
      (List.range' h.queue.blocks h.queue.blkNum ++ (s.held.erase h).flatMap Held.taken) := by
    refine ((List.perm_cons_erase hmem).flatMap_right Held.taken).trans ?_
    rw [List.flatMap_cons]
    exact hj.perm.append_right _
  rw [queueFree_eq]
  exact ⟨(hinv.core.perm hperm).freeAll, fun g hg =>
    joins_of_layout (freeAll_layout _ s.rbb) (hinv.joins g (List.mem_of_mem_erase hg))⟩

theorem Inv.alloc {s : Sys} {n : ℕ} (hinv : Inv s) (hpos : 0 < n) (hle : n ≤ s.rbb.bufSize) (hn : n < 2 ^ 24)
    (hsafe : Safe s (.alloc n)) : Inv { s with rbb := (rtRbbBlkAlloc s.rbb n).1 } := by
  refine ⟨hinv.core.alloc hpos hle hn fun havail i hi => ?_, fun h hh => ?_⟩
  · obtain ⟨h, hh, hi⟩ := List.mem_flatMap.mp hi
    exact hsafe havail h hh i hi
  · have hj := hinv.joins h hh
    rcases rtRbbBlkAlloc_eq hinv.core.arranged hle with ⟨-, heq⟩ | ⟨-, new, hfind, heq⟩ <;> simp only [heq]
    · exact hj
    · have hne : ∀ k < h.queue.blkNum, h.queue.blocks + k ≠ new := fun k hk he => by
        have hmem : h.queue.blocks + k ∈ h.taken :=
          hj.perm.mem_iff.mpr (List.mem_range'_1.mpr ⟨Nat.le_add_right _ _, Nat.add_lt_add_left hk _⟩)
        have hgot := hinv.core.got _ (List.mem_flatMap.mpr ⟨h, hh, hmem⟩)
        rw [he, (findEmpty_spec hfind).2] at hgot
        cases hgot
      refine ⟨hj.pos, hj.perm, fun k hk => ?_⟩
      rw [Nat.add_assoc, RtRbb.blkEnd, append_blkSet_of_ne _ _ _ (hne (k + 1) hk),
        append_blkSet_of_ne _ _ _ (hne k (by omega))]
      exact hj.adjacent k hk

theorem step_inv {s s' : Sys} {a : Act} (hinv : Inv s) (hsafe : Safe s a) (hstep : step s a = some s') : Inv s' := by
  cases a with
  | alloc n =>
    obtain ⟨⟨hpos, hle, hn⟩, heq⟩ := Option.ite_none_right_eq_some.mp hstep
    cases heq
    exact hinv.alloc hpos hle hn hsafe
  | put block =>
    obtain ⟨⟨hlt, hinited⟩, heq⟩ := Option.ite_none_right_eq_some.mp hstep
    cases heq
    have hmem : block ∈ s.rbb.blkList := by
      refine (List.mem_append.mp (hinv.core.covered block hlt ?_)).resolve_right fun hout => ?_
      · rw [hinited]
        exact RtRbbStatus.noConfusion
      · have hgot := hinv.core.got block hout
        rw [hinited] at hgot
        cases hgot
    exact ⟨hinv.core.put hmem, fun h hh => joins_of_layout (setStatus_layout s.rbb block .put) (hinv.joins h hh)⟩
  | queueGet len =>
    cases hstep
    exact hinv.get hsafe
  | queueFree h =>
    obtain ⟨hmem, heq⟩ := Option.ite_none_right_eq_some.mp hstep
    cases heq
    exact hinv.queueFree hmem

theorem init_inv {buf bufSize blkMaxNum : ℕ} {blockSet : ℕ → RtRbbBlk} (hbound : buf + bufSize < 2 ^ 32) :
    Inv (start (rtRbbInit buf bufSize blockSet blkMaxNum)) where
  core :=
    { arranged := (RingBlkBuf.init_inv hbound).arranged
      nodup := List.nodup_nil
      apart := List.Pairwise.nil
      inside := fun _ hi => absurd hi List.not_mem_nil
      listed := fun _ hi => absurd hi List.not_mem_nil
      got := fun _ hi => absurd hi List.not_mem_nil
      covered := fun i hi hs => absurd (by simp only [start, rtRbbInit] at hi ⊢; rw [if_pos hi]) hs }
  joins := fun _ hh => absurd hh List.not_mem_nil

/-- In every run of safe steps the memory of every queue is reserved. -/
theorem queue_memory_reserved {buf bufSize blkMaxNum : ℕ} {blockSet : ℕ → RtRbbBlk} (hbound : buf + bufSize < 2 ^ 32)
    {acts : List Act} {s : Sys} (hsafe : AllSteps step Safe (start (rtRbbInit buf bufSize blockSet blkMaxNum)) acts)
    (hrun : exec step (start (rtRbbInit buf bufSize blockSet blkMaxNum)) acts = some s) :
    ∀ h ∈ s.held, Reserved s.rbb h := fun _ hh =>
  (exec_inv_of_allSteps Inv Safe (fun _ _ _ h hs hstep => step_inv h hs hstep) (init_inv hbound) hsafe hrun).reserved hh

/-- Two blocks are queued, and another one is cut from behind the third. -/
def heldDuringAlloc : List Act :=
  [.alloc 4, .alloc 4, .alloc 4, .put 0, .put 1, .queueGet 8, .alloc 3]

def blankSet : ℕ → RtRbbBlk := fun _ => ⟨.unused, 0, 0⟩

theorem queue_memory_reserved_heldDuringAlloc :
    ∃ s, exec step (start (rtRbbInit 1000 16 blankSet 6)) heldDuringAlloc = some s ∧
      s.held = [⟨⟨0, 2⟩, [0, 1]⟩] ∧ s.rbb.blkList = [2, 3] ∧ ∀ h ∈ s.held, Reserved s.rbb h :=
  ⟨_, rfl, rfl, rfl, @queue_memory_reserved 1000 16 6 blankSet (by decide) heldDuringAlloc _ (by decide) rfl⟩

/-- The only block is queued, so the list is empty and the next block is cut from the start of the
buffer: it is the memory of the queue. -/
theorem queue_memory_handed_out :
    ∃ s, exec step (start (rtRbbInit 1000 8 blankSet 2)) [.alloc 4, .put 0, .queueGet 8, .alloc 4] = some s ∧
      s.held = [⟨⟨0, 1⟩, [0]⟩] ∧ s.rbb.blkList = [1] ∧ range s.rbb 1 = memory s.rbb ⟨0, 1⟩ ∧
      ¬∀ h ∈ s.held, Reserved s.rbb h := by
  refine ⟨_, rfl, rfl, rfl, rfl, fun hres => ?_⟩
  have hdisjoint := (hres _ (List.mem_singleton.mpr rfl)).apart 1 (by decide) (by decide) (by decide)
  have hmem : 1000 ∈ Set.Ico 1000 1004 := ⟨le_rfl, by decide⟩
  exact Set.disjoint_left.mp hdisjoint hmem hmem

-- a queue of the entries 2 and 0: its length is read from the entries 2 and 3
example :
    (exec step (start (rtRbbInit 1000 16 blankSet 3))
        [.alloc 4, .alloc 4, .alloc 4, .put 0, .queueGet 4, .queueFree ⟨⟨0, 1⟩, [0]⟩, .alloc 4,
          .put 2, .put 0, .queueGet 8]).map
      (fun s => (s.held, rtRbbBlkQueueLen s.rbb ⟨2, 2⟩)) = some ([⟨⟨2, 2⟩, [2, 0]⟩], 4) := by
  rfl

end RtThread.Drivers.RingBlkBuf.Queue
