import RtThread.Drivers.RingBlkBuf

/-!
# Runs on a ring block buffer

`live` has the blocks that were handed out and not freed. With `rt_rbb_blk_get` and
`rt_rbb_blk_free` these are the blocks of `blk_list`, and they never overlap.
-/

namespace RtThread.Drivers.RingBlkBuf

open RtThread.Lib.Rotation RtThread.Lib.Transition RtThread.Lib.Word

structure Sys where
  rbb : RtRbb
  live : List ℕ

def start (rbb : RtRbb) : Sys := ⟨rbb, []⟩

inductive Act where
  | alloc (blkSize : ℕ)
  | put (block : ℕ)
  | get
  | free (block : ℕ)
  deriving DecidableEq, Repr

/-- One call that passes the assertions of the code, with a size of 1 to `buf_size`. -/
def step (s : Sys) : Act → Option Sys
  | .alloc n =>
    if 0 < n ∧ n ≤ s.rbb.bufSize ∧ n < 2 ^ 24 then
      some ⟨(rtRbbBlkAlloc s.rbb n).1, (rtRbbBlkAlloc s.rbb n).2.toList ++ s.live⟩
    else none
  | .put block =>
    if block ∈ s.live ∧ (s.rbb.blkSet block).status = .inited then some { s with rbb := rtRbbBlkPut s.rbb block }
    else none
  | .get => some { s with rbb := (rtRbbBlkGet s.rbb).1 }
  | .free block =>
    if block ∈ s.live then some ⟨rtRbbBlkFree s.rbb block, s.live.erase block⟩ else none

/-- The bytes of a block. -/
def range (rbb : RtRbb) (i : ℕ) : Set ℕ := Set.Ico (rbb.blkSet i).buf (rbb.blkEnd i)

/-- The blocks that are in use do not overlap, lie in the buffer, and are those of `blk_list`, which
is in the order of the addresses up to one rotation. -/
structure Separate (s : Sys) : Prop where
  disjoint : s.live.Pairwise fun i j => Disjoint (range s.rbb i) (range s.rbb j)
  inside : ∀ i ∈ s.live, range s.rbb i ⊆ Set.Ico s.rbb.buf (s.rbb.buf + s.rbb.bufSize)
  rotated : Rotated (Before s.rbb.blkSet) s.rbb.blkList
  perm : s.live.Perm s.rbb.blkList

/-- The invariant: the arrangement of the list, and that its blocks are the used ones. -/
structure Inv (s : Sys) : Prop where
  arranged : Arranged s.rbb
  used : ∀ i ∈ s.rbb.blkList, (s.rbb.blkSet i).status ≠ .unused
  nodup : s.rbb.blkList.Nodup
  perm : s.live.Perm s.rbb.blkList

theorem Before.disjoint {rbb : RtRbb} {i j : ℕ} (h : Before rbb.blkSet i j) : Disjoint (range rbb i) (range rbb j) :=
  Set.Ico_disjoint_Ico.mpr ((min_le_left _ _).trans (le_max_of_le_right h))

theorem Inv.separate {s : Sys} (h : Inv s) : Separate s := by
  have hpair : s.rbb.blkList.Pairwise fun i j => Disjoint (range s.rbb i) (range s.rbb j) :=
    h.arranged.rotated.pairwise_or (fun _ _ => Before.disjoint) fun _ _ hd => hd.symm
  refine ⟨h.perm.symm.pairwise hpair fun hd => hd.symm, fun i hi => ?_, h.arranged.rotated, h.perm⟩
  obtain ⟨hlow, hhigh⟩ := h.arranged.inside i (h.perm.mem_iff.mp hi)
  exact Set.Ico_subset_Ico hlow hhigh

theorem Inv.setStatus {s : Sys} {i : ℕ} {status : RtRbbStatus} (h : Inv s) (hstatus : status ≠ .unused) :
    Inv { s with rbb := s.rbb.setStatus i status } := by
  refine ⟨h.arranged.sublist (setStatus_layout ..) (List.Sublist.refl _), fun j hj => ?_, h.nodup, h.perm⟩
  by_cases he : j = i
  · rw [he, setStatus_status_self]
    exact hstatus
  · rw [setStatus_status_of_ne _ _ _ _ he]
    exact h.used j hj

theorem Inv.alloc {s : Sys} {n : ℕ} (h : Inv s) (hpos : 0 < n) (hle : n ≤ s.rbb.bufSize) (hn : n < 2 ^ 24) :
    Inv ⟨(rtRbbBlkAlloc s.rbb n).1, (rtRbbBlkAlloc s.rbb n).2.toList ++ s.live⟩ := by
  rcases rtRbbBlkAlloc_eq h.arranged hle with ⟨-, heq⟩ | ⟨havail, new, hfind, heq⟩ <;> rw [heq]
  · exact h
  · have hnew : new ∉ s.rbb.blkList := fun hmem => h.used new hmem (findEmpty_spec hfind).2
    refine ⟨h.arranged.append hnew hpos hn havail.2.2, fun i hi => ?_, ?_, ?_⟩
    · by_cases he : i = new
      · rw [he, append_blkSet_self]
        exact RtRbbStatus.noConfusion
      · have hmem : i ∈ s.rbb.blkList := (List.mem_append.mp hi).resolve_right fun hs => he (List.mem_singleton.mp hs)
        rw [append_blkSet_of_ne _ _ _ he]
        exact h.used i hmem
    · exact List.nodup_append.mpr ⟨h.nodup, List.nodup_singleton new, fun i hi j hj hij =>
        hnew (List.mem_singleton.mp hj ▸ hij ▸ hi)⟩
    · exact (h.perm.cons new).trans (List.perm_append_singleton new s.rbb.blkList).symm

theorem Inv.free {s : Sys} {i : ℕ} (h : Inv s) : Inv ⟨rtRbbBlkFree s.rbb i, s.live.erase i⟩ := by
  refine ⟨h.arranged.sublist (free_layout s.rbb i) List.erase_sublist, fun j hj => ?_, h.nodup.erase i, h.perm.erase i⟩
  have hne : j ≠ i := (h.nodup.mem_erase_iff.mp hj).1
  have hstatus := setStatus_status_of_ne s.rbb i j .unused hne
  exact fun hun => h.used j (List.mem_of_mem_erase hj) (hstatus.symm.trans hun)

theorem step_inv {s s' : Sys} {a : Act} (h : Inv s) (hstep : step s a = some s') : Inv s' := by
  cases a with
  | alloc n =>
    obtain ⟨⟨hpos, hle, hn⟩, heq⟩ := Option.ite_none_right_eq_some.mp hstep
    cases heq
    exact h.alloc hpos hle hn
  | put block =>
    obtain ⟨-, heq⟩ := Option.ite_none_right_eq_some.mp hstep
    cases heq
    exact h.setStatus RtRbbStatus.noConfusion
  | get =>
    cases hstep
    unfold rtRbbBlkGet
    split
    · exact h
    · exact h.setStatus RtRbbStatus.noConfusion
  | free block =>
    obtain ⟨-, heq⟩ := Option.ite_none_right_eq_some.mp hstep
    cases heq
    exact h.free

theorem init_inv {buf bufSize blkMaxNum : ℕ} {blockSet : ℕ → RtRbbBlk} (hbound : buf + bufSize < 2 ^ 32) :
    Inv (start (rtRbbInit buf bufSize blockSet blkMaxNum)) where
  arranged :=
    { bound := hbound
      inside := fun _ hi => absurd hi List.not_mem_nil
      pos := fun _ hi => absurd hi List.not_mem_nil
      rotated := Rotated.of_pairwise List.Pairwise.nil }
  used := fun _ hi => absurd hi List.not_mem_nil
  nodup := List.nodup_nil
  perm := List.Perm.nil

theorem live_blocks_separate {buf bufSize blkMaxNum : ℕ} {blockSet : ℕ → RtRbbBlk} (hbound : buf + bufSize < 2 ^ 32)
    {acts : List Act} {s : Sys} (hrun : exec step (start (rtRbbInit buf bufSize blockSet blkMaxNum)) acts = some s) :
    Separate s :=
  (exec_inv Inv (fun _ _ _ h hstep => step_inv h hstep) (init_inv hbound) hrun).separate

/-- The run of `rbb_test.c` up to the sixth block, which is cut from the start of the buffer. -/
def wrapAround : List Act :=
  [.alloc 2, .alloc 4, .alloc 8, .alloc 16, .alloc 18, .put 0, .put 1, .put 2, .get, .get, .free 1, .free 0, .alloc 5]

theorem live_blocks_separate_wrapped :
    ∃ s, exec step (start (rtRbbInit 1000 52 (fun _ => ⟨.unused, 0, 0⟩) 6)) wrapAround = some s ∧
      s.rbb.blkList = [2, 3, 4, 0] ∧ (s.rbb.blkSet 0).buf = 1000 ∧ Separate s :=
  ⟨_, rfl, rfl, rfl, @live_blocks_separate 1000 52 6 (fun _ => ⟨.unused, 0, 0⟩) (by decide) wrapAround _ rfl⟩

end RtThread.Drivers.RingBlkBuf
